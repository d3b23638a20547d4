/-
  Scytale.Node.Offered — what the pool offers for a block applies to the canonical set
  (crates/scytale-mempool/src/pool.rs, crates/scytale-core/src/authorization.rs and utxo.rs).

  The pool looks up what a transaction spends once, in the set and in its parents; the ledger
  looks it up again, when the transactions before it have been applied.
  - `consensus_refusesCarriers`: no script makes a data carrier spendable.
  - `Staged`: the set when a part of the list has been applied.
  - `Staged.apply`: the next transaction applies, and pays the fee the pool recorded.
  - `offered_applies`: so the whole list does, in its order, for the fees the pool answers.
-/
import Scytale.Mempool.Pending
import Scytale.Mempool.Selection
import Scytale.Node.VerifierHeight

namespace Scytale

open Lib

variable {H : Hasher} {verifyStrict : VerifyStrict} {vm : Vm}

/-! ## Data carriers -/

/-- A script that begins with a return runs into it, or out of its budget. -/
theorem ScriptEngine.executeScript_return {eng : ScriptEngine} {ctx : ScriptContext} (script : Bytes) (machine m' : Machine) :
    eng.executeScript H verifyStrict ctx (0x6a :: script) machine ≠ .ok m' := by
  have hplain : isPlain 0x6a = true := by decide
  have hactive : (⟨[], machine, script⟩ : Frame).isActive = true := rfl
  have hop : OpCode.fromByte 0x6a = some .opReturn := by decide
  rw [executeScript_eq_run, run_cons, round_plain hplain, hactive]
  intro h
  obtain ⟨f, hf, -⟩ := bind_eq_ok.mp h
  simp only [Bool.not_true, Bool.false_eq_true, if_false, hop] at hf
  obtain ⟨m, -, hf⟩ := bind_eq_ok.mp hf
  obtain ⟨stack, hstack, -⟩ := bind_eq_ok.mp hf
  cases hstack

theorem consensus_refusesCarriers (height : UInt64) :
    RefusesCarriers (consensusScriptVerifier (nodeEngines H verifyStrict vm) height) := by
  intro digest lock proof h hhead
  obtain ⟨script, rfl⟩ := List.head?_eq_some_iff.mp hhead
  have hcontract : isContractLock (0x6a :: script) = false := by
    simp [isContractLock, OutputLock.magicPrefix]
  unfold consensusScriptVerifier at h
  rw [hcontract] at h
  simp only [Bool.false_eq_true, if_false] at h
  split at h
  · cases h
  · cases h
  · rename_i hexecute
    simp only [nodeEngines, mapError_eq_ok, ScriptEngine.execute] at hexecute
    obtain ⟨m, -, hexecute⟩ := bind_eq_ok.mp hexecute
    obtain ⟨m', hm', -⟩ := bind_eq_ok.mp hexecute
    exact ScriptEngine.executeScript_return script m m' hm'

/-! ## One transaction after the other -/

/-- The set holds no output of an entry. -/
def UtxoSet.HoldsNoneOf (S : UtxoSet) (m : Mempool) : Prop := ∀ (id : Hash256) (e : MempoolEntry), m.entries[id]? = some e →
  ∀ index : UInt32, index.toNat < e.transaction.outputs.length → S.entries[(⟨id, index⟩ : OutPoint)]? = none

/-- The set when the entries of `before` have been applied to `S`. -/
structure Staged (S : UtxoSet) (before : List MempoolEntry) (T : UtxoSet) : Prop where
  kept : ∀ (o : OutPoint) (e : UtxoEntry), S.entries[o]? = some e → (∀ b ∈ before, o ∉ b.spends) → T.entries[o]? = some e
  made : ∀ b ∈ before, ∀ (index : UInt32) (out : TxOut), b.transaction.outputs[index.toNat]? = some out →
    out.isOpReturn = false → (∀ x ∈ before, (⟨b.txid, index⟩ : OutPoint) ∉ x.spends) →
      ∃ e, T.entries[(⟨b.txid, index⟩ : OutPoint)]? = some e ∧ e.output = out
  origin : ∀ (o : OutPoint) (e : UtxoEntry), T.entries[o]? = some e →
    S.entries[o]? = some e ∨ o.txid ∈ before.map MempoolEntry.txid
  balance : T.total + (before.map fun b => b.fee.toNat).sum ≤ S.total

section
variable {S : UtxoSet} {strings : List Bytes} {m : Mempool}

theorem Staged.start (S : UtxoSet) : Staged S [] S :=
  ⟨fun _ _ h _ => h, by simp, fun _ _ h => .inl h, by simp⟩

/-- Everything about the pool that the ledger relies on. -/
structure Ledgered (H : Hasher) (S : UtxoSet) (strings : List Bytes) (m : Mempool) : Prop where
  indexed : IndexedPool H m
  free : ConflictFree m
  payable : PoolPayable H S strings m
  holdsNone : S.HoldsNoneOf m

variable {before after : List MempoolEntry} {e : MempoolEntry} {T : UtxoSet}

/-- What an entry spends is there when its parents have been applied. -/
theorem Staged.lookup (h : Staged S before T) (hH : CollisionFree H strings) (hm : Ledgered H S strings m)
    (hbefore : ∀ b ∈ before, m.entries[b.txid]? = some b) (hparents : ∀ p, m.Up e.txid p → p ∈ before.map MempoolEntry.txid)
    {o : OutPoint} {out : TxOut} (hunspent : ∀ b ∈ before, o ∉ b.spends) (hs : Spends H S strings m e.txid o out) :
    ∃ u, T.entries[o]? = some u ∧ u.output = out := by
  cases hs with
  | unspent hu hout => exact ⟨_, h.kept o _ hu hunspent, hout⟩
  | pending hnone hup hknown hid hout hspendable =>
    rename_i t
    obtain ⟨b, hb, hbid⟩ := List.mem_map.mp (hparents _ hup)
    have hentry := hbefore b hb
    have hsame : b.transaction = t := by
      refine (hm.payable _ b hentry).known.eq_of_txid hH hknown ?_
      rw [(hm.indexed.keyed _ b hentry).2, hbid, hid]
    obtain ⟨txid, index⟩ := o
    obtain rfl : b.txid = txid := hbid
    exact h.made b hb index out (hsame ▸ hout) hspendable hunspent

/-- The entries of the set that a list of outputs stands for. -/
theorem exists_spent {is : List TxIn} {outs : List TxOut}
    (h : List.Forall₂ (fun i out => ∃ u, T.entries[i.previousOutput]? = some u ∧ u.output = out) is outs) :
    ∃ spent : List UtxoEntry, is.map (fun i => T.entries[i.previousOutput]?) = spent.map some ∧
      UtxoSet.valueSum spent = Transaction.outputSum outs := by
  induction h with
  | nil => exact ⟨[], rfl, rfl⟩
  | cons hu _ ih =>
    obtain ⟨u, hu, rfl⟩ := hu
    obtain ⟨spent, hmap, hsum⟩ := ih
    refine ⟨u :: spent, by rw [List.map_cons, List.map_cons, hu, hmap], ?_⟩
    simp only [UtxoSet.valueSum, Transaction.outputSum, List.map_cons, List.sum_cons] at hsum ⊢
    rw [hsum]

theorem Ledgered.unspent_before (hm : Ledgered H S strings m) (hbefore : ∀ b ∈ before, m.entries[b.txid]? = some b)
    (he : m.entries[e.txid]? = some e) (hnew : e.txid ∉ before.map MempoolEntry.txid) :
    ∀ o ∈ e.spends, ∀ b ∈ before, o ∉ b.spends := by
  intro o ho b hb hob
  have hid := hm.free _ _ e b o he (hbefore b hb) ho hob
  exact hnew (List.mem_map.mpr ⟨b, hb, hid.symm⟩)

/-- The outpoints an entry creates are in neither set. -/
theorem Staged.fresh (h : Staged S before T) (hm : Ledgered H S strings m) (he : m.entries[e.txid]? = some e)
    (hnew : e.txid ∉ before.map MempoolEntry.txid) : ∀ o ∈ e.transaction.outpoints H,
      o.txid = e.txid ∧ S.entries[o]? = none ∧ T.entries[o]? = none := by
  intro o ho
  obtain ⟨hid, hlt⟩ := UtxoSet.outpoints_index ho (hm.payable _ e he).known.sized.2
  rw [(hm.indexed.keyed _ e he).2] at hid
  have hnone : S.entries[o]? = none := by
    obtain ⟨txid, index⟩ := o
    obtain rfl : txid = e.txid := hid
    exact hm.holdsNone _ e he index hlt
  refine ⟨hid, hnone, Option.eq_none_iff_forall_not_mem.mpr fun u hu => ?_⟩
  rcases h.origin o u hu with hs | hmem
  · rw [hnone] at hs
    cases hs
  · exact hnew (hid ▸ hmem)

/-- The next transaction applies, and pays the fee recorded for it. -/
theorem Staged.apply (h : Staged S before T) (hH : CollisionFree H strings) (hm : Ledgered H S strings m)
    (hbefore : ∀ b ∈ before, m.entries[b.txid]? = some b) (he : m.entries[e.txid]? = some e)
    (hnew : e.txid ∉ before.map MempoolEntry.txid) (hparents : ∀ p, m.Up e.txid p → p ∈ before.map MempoolEntry.txid)
    (height : UInt64) : ∃ T', UtxoSet.applyTransaction H T e.transaction height = (T', .ok e.fee) := by
  have hpay := hm.payable _ e he
  obtain ⟨outs, totalOut, hspends, hlt, hout, hfee⟩ := hpay.paid
  have hunspent := hm.unspent_before hbefore he hnew
  have hthere : List.Forall₂ (fun i out => ∃ u, T.entries[i.previousOutput]? = some u ∧ u.output = out)
      e.transaction.inputs outs := by
    obtain ⟨hlen, hall⟩ := List.forall₂_iff_get.mp hspends
    refine List.forall₂_iff_get.mpr ⟨hlen, fun n hn hn' => ?_⟩
    apply h.lookup hH hm hbefore hparents _ (hall n hn hn')
    exact hunspent _ (List.mem_map_of_mem (List.get_mem _ _))
  obtain ⟨spent, hspent, hsum⟩ := exists_spent hthere
  obtain ⟨T', fee, hap, hpaid⟩ := UtxoSet.applyTransaction_of_fresh height hpay.stateless hspent (by omega) hout (by omega)
    (Nat.le_of_lt hpay.known.sized.2) fun o ho => (h.fresh hm he hnew o ho).2.2
  obtain rfl : fee = e.fee := UInt64.toNat_inj.mp (by omega)
  exact ⟨T', hap⟩

/-- And leaves the set of one more. -/
theorem Staged.snoc (h : Staged S before T) (hm : Ledgered H S strings m) (he : m.entries[e.txid]? = some e)
    (hnew : e.txid ∉ before.map MempoolEntry.txid) {height : UInt64} {T' : UtxoSet}
    (hap : UtxoSet.applyTransaction H T e.transaction height = (T', .ok e.fee)) : Staged S (before ++ [e]) T' := by
  obtain ⟨-, hins, -⟩ := UtxoSet.applyTransaction_ok hap
  obtain ⟨-, -, hin, hrest⟩ := UtxoSet.insertAll_ok hins
  rw [UtxoSet.created_keys] at hrest
  have hfresh := h.fresh hm he hnew
  have hget : ∀ {o}, o ∉ e.transaction.outpoints H → o ∉ e.spends → T'.entries[o]? = T.entries[o]? := by
    intro o ho hospent
    rw [hrest o ho, UtxoSet.get_removeInputs]
    exact if_neg hospent
  constructor
  · intro o u hu hunspent
    have ho : o ∉ e.transaction.outpoints H := fun ho => by
      rw [(hfresh o ho).2.1] at hu
      cases hu
    rw [hget ho (hunspent e (by simp))]
    exact h.kept o u hu fun b hb => hunspent b (List.mem_append_left _ hb)
  · intro b hb index out hout hspendable hunspent
    rcases List.mem_append.mp hb with hb | hb
    · have ho : (⟨b.txid, index⟩ : OutPoint) ∉ e.transaction.outpoints H := fun ho =>
        hnew (List.mem_map.mpr ⟨b, hb, (hfresh _ ho).1⟩)
      rw [hget ho (hunspent e (by simp))]
      exact h.made b hb index out hout hspendable fun x hx => hunspent x (List.mem_append_left _ hx)
    · obtain rfl := List.mem_singleton.mp hb
      have hmade := hin _ (UtxoSet.mem_created (H := H) hout hspendable height false)
      rw [(hm.indexed.keyed _ b he).2] at hmade
      exact ⟨_, hmade, rfl⟩
  · intro o u hu
    by_cases ho : o ∈ e.transaction.outpoints H
    · exact .inr (by simp [(hfresh o ho).1])
    · rw [hrest o ho, UtxoSet.get_removeInputs] at hu
      split at hu
      · cases hu
      · apply (h.origin o u hu).imp_right
        intro hmem
        rw [List.map_append]
        exact List.mem_append_left _ hmem
  · have htotal := UtxoSet.applyTransaction_total hap
    have hbalance := h.balance
    rw [List.map_append, List.sum_append, List.map_singleton, List.sum_singleton]
    omega

/-- The rest of the list applies, each after its parents. -/
theorem Staged.run (hH : CollisionFree H strings) (hm : Ledgered H S strings m) (hlt : S.total < 2 ^ 64) (height : UInt64)
    (rest : List MempoolEntry) : ∀ {before : List MempoolEntry} {T : UtxoSet} {fees : UInt64}, Staged S before T →
      fees.toNat = (before.map fun b => b.fee.toNat).sum → (∀ b ∈ before ++ rest, m.entries[b.txid]? = some b) →
      ((before ++ rest).map MempoolEntry.txid).Nodup → m.ParentsFirst (before ++ rest) →
        ∃ T' fees', UtxoSet.applyRest H height T fees (rest.map MempoolEntry.transaction) = .ok (T', fees') ∧
          fees'.toNat = ((before ++ rest).map fun b => b.fee.toNat).sum := by
  induction rest with
  | nil =>
    intro before T fees _ hfees _ _ _
    exact ⟨T, fees, rfl, by rw [List.append_nil]; exact hfees⟩
  | cons e rest ih =>
    intro before T fees h hfees hentries hnodup hparents
    have he := hentries e (by simp)
    have hbefore : ∀ b ∈ before, m.entries[b.txid]? = some b := fun b hb => hentries b (List.mem_append_left _ hb)
    have hnew : e.txid ∉ before.map MempoolEntry.txid := by
      rw [List.map_append, List.map_cons] at hnodup
      exact fun hmem => (List.disjoint_of_nodup_append hnodup) hmem List.mem_cons_self
    obtain ⟨T₁, hap⟩ := h.apply hH hm hbefore he hnew (hparents before e rest rfl) height
    have h₁ := h.snoc hm he hnew hap
    have hbalance := h₁.balance
    have hsum : ((before ++ [e]).map fun b => b.fee.toNat).sum = fees.toNat + e.fee.toNat := by
      rw [List.map_append, List.sum_append, List.map_singleton, List.sum_singleton, hfees]
    have hadd := checkedAdd_of_lt (show fees.toNat + e.fee.toNat < 2 ^ 64 by omega)
    have hval := checkedAdd_eq_some hadd
    rw [List.append_cons] at hentries hnodup hparents ⊢
    have hfees₁ : (fees + e.fee).toNat = ((before ++ [e]).map fun b => b.fee.toNat).sum := by omega
    obtain ⟨T', fees', hrest, htotal⟩ := ih h₁ hfees₁ hentries hnodup hparents
    refine ⟨T', fees', ?_, htotal⟩
    rw [List.map_cons, UtxoSet.applyRest, (hm.payable _ e he).regular]
    simp only [Bool.false_eq_true, if_false, hap, hadd]
    exact hrest

/-! ## What is offered -/

theorem Payable.spends {id : Hash256} (h : Payable H S strings m id e) : ∀ i ∈ e.transaction.inputs,
    ∃ out, Spends H S strings m id i.previousOutput out := by
  obtain ⟨outs, -, hspends, -⟩ := h.paid
  intro i hi
  obtain ⟨hlen, hall⟩ := List.forall₂_iff_get.mp hspends
  obtain ⟨n, hn, rfl⟩ := List.getElem_of_mem hi
  exact ⟨_, hall n hn (hlen ▸ hn)⟩

variable {maxBytes : Nat} {s : Mempool.Selection} {es : List MempoolEntry}

/-- The parents that are entries come before. -/
theorem Ledgered.parents_before (hm : Ledgered H S strings m) (h : m.Chosen maxBytes m.descending s es)
    {before after : List Transaction} {c : Transaction} (hsplit : s.txs = before ++ c :: after) {p : Transaction}
    (hp : p ∈ m.transactions) (hspends : SpendsOutputOf c (p.txid H) p) : p ∈ before := by
  rw [h.txs] at hsplit
  obtain ⟨es₁, rest, hes, rfl, hrest⟩ := List.map_eq_append_iff.mp hsplit
  obtain ⟨e, es₂, rfl, rfl, -⟩ := List.map_eq_cons_iff.mp hrest
  have he : m.entries[e.txid]? = some e := h.entries e (by rw [hes]; simp)
  obtain ⟨id, ep, hep, rfl⟩ := Mempool.mem_transactions.mp hp
  rw [(hm.indexed.keyed id ep hep).2] at hspends
  obtain ⟨i, hi, hid, hlt⟩ := hspends
  have hnone : S.entries[i.previousOutput]? = none := by
    rw [show i.previousOutput = ⟨id, i.previousOutput.index⟩ from hid ▸ rfl]
    exact hm.holdsNone id ep hep _ hlt
  obtain ⟨out, hsource⟩ := (hm.payable _ e he).spends i hi
  cases hsource with
  | unspent hu hout =>
    rw [hnone] at hu
    cases hu
  | pending hnone hup hknown hid' hout hspendable =>
    obtain ⟨x, hx, hxid⟩ := List.mem_map.mp (h.parents es₁ e es₂ hes _ hup)
    have hentry := h.entries x (by rw [hes]; exact List.mem_append_left _ hx)
    rw [hxid, hid, hep] at hentry
    cases hentry
    exact List.mem_map_of_mem hx

theorem Ledgered.size_le (hm : Ledgered H S strings m) (hbytes : Table.sumBy MempoolEntry.sizeBytes m.entries ≤ 2 ^ 64 - 1)
    (h : m.Chosen maxBytes m.descending s es) : (s.txs.map Transaction.encodedSize).sum ≤ maxBytes := by
  have hsizes : s.txs.map Transaction.encodedSize = es.map MempoolEntry.sizeBytes := by
    rw [h.txs, List.map_map]
    exact List.map_congr_left fun e he => ((hm.payable _ e (h.entries e he)).size).symm
  have hle := Mempool.Chosen.sum_le MempoolEntry.sizeBytes h.entries (h.nodup (Mempool.descending_nodup m))
  have hwithin := h.within
  rw [hsizes]
  rw [h.bytes] at hwithin
  omega

theorem Ledgered.applies (hH : CollisionFree H strings) (hm : Ledgered H S strings m) (hlt : S.total < 2 ^ 64)
    (h : m.Chosen maxBytes m.descending s es) (height : UInt64) :
    ∃ T, UtxoSet.applyRest H height S 0 s.txs = .ok (T, s.fees) := by
  have hnodup : (es.map MempoolEntry.txid).Nodup := by
    refine List.Nodup.map_on (fun a ha b hb heq => ?_) (h.nodup (Mempool.descending_nodup m))
    have hentry := h.entries a ha
    rw [heq, h.entries b hb] at hentry
    cases hentry
    rfl
  have hzero : (0 : UInt64).toNat = (([] : List MempoolEntry).map fun b => b.fee.toNat).sum := rfl
  obtain ⟨T, fees, hap, hfees⟩ := (Staged.start S).run hH hm hlt height es hzero h.entries hnodup h.parents
  have hsaturated := h.fees
  have hbound := fees.toNat_lt
  rw [List.nil_append] at hfees
  obtain rfl : fees = s.fees := UInt64.toNat_inj.mp (by omega)
  exact ⟨T, by rw [h.txs]; exact hap⟩

end

/-- The verifiers the node admits with. -/
def IsConsensusVerifier (H : Hasher) (verifyStrict : VerifyStrict) (vm : Vm) (verifier : AuthorizationVerifier) : Prop :=
  ∃ height, verifier = consensusScriptVerifier (nodeEngines H verifyStrict vm) height

/-- In every run of admissions against one set, by consensus verifiers of any heights, where the
    digest has no collision among the encodings handed in, the set holds no output of an entry
    and its value fits in 64 bits: what is offered for a block of any size takes no more than
    that, lists every parent in the pool before its children, and applies to the set in its
    order, at every height, for fees that add up to the answered total. -/
theorem offered_applies {strings : List Bytes} (hH : CollisionFree H strings) {S : UtxoSet} {m : Mempool}
    (h : PoolRun H (PoolOp.AdmitsAgainst S strings (IsConsensusVerifier H verifyStrict vm)) m) (hnone : S.HoldsNoneOf m)
    {quanta : UInt64} (hquanta : S.totalQuanta = .ok quanta) (maxBytes : Nat) (height : UInt64) :
    ((m.selectTransactionsForBlock maxBytes).1.map Transaction.encodedSize).sum ≤ maxBytes ∧
      (∀ before c after, (m.selectTransactionsForBlock maxBytes).1 = before ++ c :: after →
        ∀ p ∈ m.transactions, SpendsOutputOf c (p.txid H) p → p ∈ before) ∧
      ∃ T, UtxoSet.applyRest H height S 0 (m.selectTransactionsForBlock maxBytes).1 =
        .ok (T, (m.selectTransactionsForBlock maxBytes).2) := by
  have hfits : PoolRun H PoolOp.Fits m := h.mono fun m op hop => by
    cases op with
    | admitTx tx utxos verifier now =>
      obtain ⟨-, -, -, -, hfit⟩ := hop
      exact hfit
    | remove txid => trivial
    | connect block utxos => trivial
    | reorg txs utxos verifier now => exact hop.elim
  have hpayable : PoolPayable H S strings m := h.payable fun verifier ⟨height, hv⟩ => hv ▸ consensus_refusesCarriers height
  have hm : Ledgered H S strings m := ⟨hfits.indexed, hfits.coherent.conflictFree, hpayable, hnone⟩
  have hlt : S.total < 2 ^ 64 := UtxoSet.totalQuanta_ok hquanta ▸ quanta.toNat_lt
  have hbytes : Table.sumBy MempoolEntry.sizeBytes m.entries ≤ 2 ^ 64 - 1 := hfits.coherent.bytes ▸ hfits.totalBytes_le
  obtain ⟨s, es, hchosen, hsel⟩ := Mempool.selection_chosen hm.indexed maxBytes
  rw [hsel]
  exact ⟨hm.size_le hbytes hchosen, fun before c after hsplit p hp hspends => hm.parents_before hchosen hsplit hp hspends,
    hm.applies hH hlt hchosen height⟩

/-! ### A parent and its child -/

/-- An admission on the two outputs, by the scripts. -/
def admitScript (H : Hasher) (tx : Transaction) : PoolOp :=
  .admitTx tx funding (consensusScriptVerifier (nodeEngines H (fun _ _ _ => false) fun _ _ _ _ _ => .error .outOfGas) 1) 100

def scriptPool (H : Hasher) : Mempool := ((smallPool 10).step H (admitScript H parentTx)).step H (admitScript H (thriftyChildTx H))

set_option maxRecDepth 10000 in
theorem offered_applies_pair : ((scriptPool Blake3.digest).selectTransactionsForBlock 1000).1 =
      [parentTx, thriftyChildTx Blake3.digest] ∧
    (((scriptPool Blake3.digest).selectTransactionsForBlock 1000).1.map Transaction.encodedSize).sum ≤ 1000 ∧
      (∀ before c after, ((scriptPool Blake3.digest).selectTransactionsForBlock 1000).1 = before ++ c :: after →
        ∀ p ∈ (scriptPool Blake3.digest).transactions, SpendsOutputOf c (p.txid Blake3.digest) p → p ∈ before) ∧
      ∃ T, UtxoSet.applyRest Blake3.digest 7 funding 0 ((scriptPool Blake3.digest).selectTransactionsForBlock 1000).1 =
        .ok (T, ((scriptPool Blake3.digest).selectTransactionsForBlock 1000).2) := by
  have hparent : (admitScript Blake3.digest parentTx).AdmitsAgainst funding
      [parentTx.canonicalBytes, (thriftyChildTx Blake3.digest).canonicalBytes]
      (IsConsensusVerifier Blake3.digest (fun _ _ _ => false) fun _ _ _ _ _ => .error .outOfGas) (smallPool 10) :=
    ⟨rfl, ⟨1, rfl⟩, by decide +kernel, by simp, by decide +kernel⟩
  have hchild : (admitScript Blake3.digest (thriftyChildTx Blake3.digest)).AdmitsAgainst funding
      [parentTx.canonicalBytes, (thriftyChildTx Blake3.digest).canonicalBytes]
      (IsConsensusVerifier Blake3.digest (fun _ _ _ => false) fun _ _ _ _ _ => .error .outOfGas)
      ((smallPool 10).step Blake3.digest (admitScript Blake3.digest parentTx)) :=
    ⟨rfl, ⟨1, rfl⟩, by decide +kernel, by simp, by decide +kernel⟩
  have hnone : funding.HoldsNoneOf (scriptPool Blake3.digest) := by
    have hall : ∀ p ∈ (scriptPool Blake3.digest).entries.toList, ∀ q ∈ funding.entries.toList, q.1.txid ≠ p.1 := by
      decide +kernel
    intro id e he index _
    refine Option.eq_none_iff_forall_not_mem.mpr fun u hu => ?_
    exact hall (id, e) (Table.mem_toList.mpr he) (_, u) (Table.mem_toList.mpr hu) rfl
  have hquanta : funding.totalQuanta = .ok 20000 := by decide +kernel
  refine ⟨by decide +kernel, offered_applies (by decide +kernel) (.step (.step (.empty 10 10000 0) _ hparent) _ hchild) hnone hquanta
    1000 7⟩

end Scytale
