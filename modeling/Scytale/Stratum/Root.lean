/-
  Scytale.Stratum.Root — the UTXO root of a pool's blocks
  (apps/scytale-node/src/stratum_service.rs, crates/scytale-core/src/utxo.rs).

  The root is fixed when the job is made, of a coinbase with zeros for the extranonces; the
  extranonces change the coinbase's identifier, and with it the outpoints it creates.
  - `assembleBlock_eq`: an assembled block is the job's block with the extranonces filled in.
  - `coinbases_apart`: coinbases of two identifiers leave sets that differ in an outpoint,
    whatever transactions follow.
  - `stratum_utxo_root_iff`: the root of the job is the root of the block's set exactly when
    the extranonces are the zeros the job was made with, or the payout is not spendable.
-/
import Scytale.Stratum.Service
import Scytale.Mining.Collected
import Scytale.Core.UtxoRoot

namespace Scytale

open Lib

variable {H : Hasher}

/-! ## Filling in the extranonces -/

/-- The bytes before the extranonces. -/
def coinbaseHead (height : UInt64) : Bytes :=
  u32le transactionVersion1 ++ u32le 1 ++ OutPoint.null.toFixedBytes ++ u32le 16 ++ u64le height

/-- The bytes behind them. -/
def coinbaseTail (outputs : List TxOut) : Bytes :=
  u32le 0xffffffff ++ u32le (UInt32.ofNat outputs.length) ++ outputs.flatMap TxOut.canonicalBytes ++ u64le 0

theorem coinbaseHead_length (height : UInt64) : (coinbaseHead height).length = 56 := by
  simp [coinbaseHead, OutPoint.toFixedBytes, Hash256.size]

theorem jobCoinbase_bytes (height : UInt64) {extranonces : Bytes} (h : extranonces.length = 8) (outputs : List TxOut) :
    (jobCoinbase height extranonces outputs).canonicalBytes = coinbaseHead height ++ extranonces ++ coinbaseTail outputs := by
  have hlen : UInt32.ofNat (u64le height ++ extranonces).length = 16 := by
    rw [List.length_append, u64le_length, h]
    rfl
  simp only [jobCoinbase, Transaction.canonicalBytes, TxIn.new, TxIn.canonicalBytes, vecBytes, hlen, coinbaseHead,
    coinbaseTail, List.flatMap_cons, List.flatMap_nil, List.append_nil, List.append_assoc]
  rfl

theorem MadeOf.halves {utxos : UtxoSet} {template : BlockTemplate} {job : StratumJob} {cached : CachedJob}
    {coinbase : Transaction} {otherTxs : List Transaction} (h : MadeOf H utxos template job cached coinbase otherTxs) :
    job.coinbase1 = coinbaseHead template.height ∧ job.coinbase2 = coinbaseTail coinbase.outputs := by
  have hbytes := jobCoinbase_bytes template.height (List.length_replicate (n := 8) (a := (0 : UInt8))) coinbase.outputs
  have hhead := coinbaseHead_length template.height
  rw [h.coinbase1, h.coinbase2, placeholderCoinbase, hbytes, List.append_assoc]
  refine ⟨List.take_left' hhead, ?_⟩
  rw [← List.append_assoc]
  exact List.drop_left' (by rw [List.length_append, hhead, List.length_replicate])

/-- The job's payload is the encoding of its coinbase with the extranonces filled in. -/
theorem MadeOf.rawCoinbase {utxos : UtxoSet} {template : BlockTemplate} {job : StratumJob} {cached : CachedJob}
    {coinbase : Transaction} {otherTxs : List Transaction} (h : MadeOf H utxos template job cached coinbase otherTxs)
    (extranonce1 extranonce2 : Extranonce) : job.rawCoinbase extranonce1 extranonce2 =
      (jobCoinbase template.height (extranonce1.1 ++ extranonce2.1) coinbase.outputs).canonicalBytes := by
  obtain ⟨h1, h2⟩ := h.halves
  rw [jobCoinbase_bytes _ (by rw [List.length_append, extranonce1.2, extranonce2.2]), StratumJob.rawCoinbase, h1, h2]
  simp only [List.append_assoc]

/-- A reader takes the coinbase with the extranonces filled in, as far as the number of its
    outputs goes. -/
theorem MadeOf.decodable {utxos : UtxoSet} {template : BlockTemplate} {job : StratumJob} {cached : CachedJob}
    {coinbase : Transaction} {otherTxs : List Transaction} (h : MadeOf H utxos template job cached coinbase otherTxs)
    (hcount : coinbase.outputs.length ≤ maxVectorLength) (extranonce1 extranonce2 : Extranonce) :
    (jobCoinbase template.height (extranonce1.1 ++ extranonce2.1) coinbase.outputs).decodable = true := by
  have hlen : (u64le template.height ++ (extranonce1.1 ++ extranonce2.1)).length = 16 := by
    rw [List.length_append, List.length_append, u64le_length, extranonce1.2, extranonce2.2]
  have hone : 1 ≤ maxVectorLength := by decide
  have houts : coinbase.outputs.all TxOut.encodable = true := (Bool.and_eq_true_iff.mp h.encodable).2
  refine (Transaction.decodable_iff _).mpr ⟨⟨hone, fun i hi => ?_⟩, hcount, List.all_eq_true.mp houts⟩
  obtain rfl := List.mem_singleton.mp hi
  refine decide_eq_true ?_
  rw [TxIn.new, hlen]
  decide

theorem assembleBlock_eq {utxos : UtxoSet} {template : BlockTemplate} {job : StratumJob} {cached : CachedJob}
    {coinbase : Transaction} {otherTxs : List Transaction} (h : MadeOf H utxos template job cached coinbase otherTxs)
    (hcount : coinbase.outputs.length ≤ maxVectorLength) (extranonce1 extranonce2 : Extranonce) (timestamp nonce : UInt64) :
    assembleBlock (job.candidate H extranonce1 extranonce2 timestamp nonce) cached =
      .ok ⟨(job.candidate H extranonce1 extranonce2 timestamp nonce).header.toBlockHeader,
        jobCoinbase template.height (extranonce1.1 ++ extranonce2.1) coinbase.outputs :: otherTxs⟩ := by
  have hreads := transaction_reads.reads _ [] (h.decodable hcount extranonce1 extranonce2)
  rw [List.append_nil, ← h.rawCoinbase] at hreads
  unfold assembleBlock Decoder.fromCanonicalBytes
  simp only [StratumJob.candidate, hreads, h.otherTxs]

/-! ## Two coinbases -/

namespace UtxoSet

variable {s s' t t' : UtxoSet} {o : OutPoint}

/-- A transaction that spent the outpoint would fail on the second set, one that created it
    would be a duplicate on the first. -/
theorem applyTransaction_apart {tx : Transaction} {height fee fee' : UInt64} (hs : s.entries[o]? ≠ none)
    (ht : t.entries[o]? = none) (h : applyTransaction H s tx height = (s', .ok fee))
    (h' : applyTransaction H t tx height = (t', .ok fee')) : s'.entries[o]? ≠ none ∧ t'.entries[o]? = none := by
  have hspent : o ∉ tx.inputs.map TxIn.previousOutput := by
    intro ho
    obtain ⟨e, he⟩ := applyTransaction_unspent h' o ho
    rw [ht] at he
    cases he
  obtain ⟨-, hfresh, -, hout⟩ := insertAll_ok (applyTransaction_ok h).2.1
  obtain ⟨-, -, -, hout'⟩ := insertAll_ok (applyTransaction_ok h').2.1
  have hcreated : o ∉ (created H height false tx).map (·.1) := by
    intro ho
    obtain ⟨p, hp, rfl⟩ := List.mem_map.mp ho
    have hnone := hfresh p hp
    rw [get_removeInputs, if_neg hspent] at hnone
    exact hs hnone
  rw [hout o hcreated, hout' o hcreated, get_removeInputs, get_removeInputs, if_neg hspent, if_neg hspent]
  exact ⟨hs, ht⟩

theorem applyRest_apart {height : UInt64} {txs : List Transaction} : ∀ {s t s' t' : UtxoSet} {fees fees' r r' : UInt64},
    s.entries[o]? ≠ none → t.entries[o]? = none → applyRest H height s fees txs = .ok (s', r) →
    applyRest H height t fees' txs = .ok (t', r') → s'.entries[o]? ≠ none ∧ t'.entries[o]? = none := by
  induction txs with
  | nil =>
    intro s t s' t' fees fees' r r' hs ht h h'
    cases h
    cases h'
    exact ⟨hs, ht⟩
  | cons tx txs ih =>
    intro s t s' t' fees fees' r r' hs ht h h'
    obtain ⟨-, s₁, fee, fees₁, hap, -, hrest⟩ := applyRest_cons h
    obtain ⟨-, t₁, fee', fees₁', hap', -, hrest'⟩ := applyRest_cons h'
    obtain ⟨hs₁, ht₁⟩ := applyTransaction_apart hs ht hap hap'
    exact ih hs₁ ht₁ hrest hrest'

theorem createdFrom_ne_nil (txid : Hash256) (height : UInt64) (cb : Bool) {os : List TxOut} {out : TxOut} (hm : out ∈ os)
    (hout : out.isOpReturn = false) : ∀ idx : Nat, createdFrom txid height cb idx os ≠ [] := by
  induction os with
  | nil => cases hm
  | cons a os ih =>
    intro idx
    rw [createdFrom]
    split
    · rename_i ha
      rcases List.mem_cons.mp hm with rfl | hm
      · rw [hout] at ha
        cases ha
      · exact ih hm _
    · exact List.cons_ne_nil _ _

theorem createdFrom_eq_nil (txid : Hash256) (height : UInt64) (cb : Bool) {os : List TxOut}
    (h : ∀ out ∈ os, out.isOpReturn = true) : ∀ idx : Nat, createdFrom txid height cb idx os = [] := by
  induction os with
  | nil => intro idx; rfl
  | cons a os ih =>
    intro idx
    rw [createdFrom, if_pos (h a List.mem_cons_self)]
    exact ih (fun out hout => h out (List.mem_cons_of_mem _ hout)) _

/-- The first coinbase's first output is in the one set and not in the other. -/
theorem coinbases_apart {cb cb' : Transaction} {rest : List Transaction} {height fees fees' : UInt64} {u u' : UtxoSet}
    {out : TxOut} (hm : out ∈ cb.outputs) (hout : out.isOpReturn = false) (hid : cb.txid H ≠ cb'.txid H)
    (h : applyBlock H s (cb :: rest) height = .ok (u, fees)) (h' : applyBlock H s (cb' :: rest) height = .ok (u', fees')) :
    ∃ o : OutPoint, u.entries[o]? ≠ none ∧ u'.entries[o]? = none := by
  obtain ⟨_, _, s₁, htxs, -, hcb, hrest⟩ := applyBlock_ok h
  cases htxs
  obtain ⟨_, _, s₁', htxs, -, hcb', hrest'⟩ := applyBlock_ok h'
  cases htxs
  obtain ⟨-, hins⟩ := applyCoinbase_ok hcb
  obtain ⟨-, hins'⟩ := applyCoinbase_ok hcb'
  obtain ⟨p, hp⟩ := List.exists_mem_of_ne_nil _ (createdFrom_ne_nil (cb.txid H) height true hm hout 0)
  obtain ⟨-, hfresh, hin, -⟩ := insertAll_ok hins
  obtain ⟨-, -, -, hother⟩ := insertAll_ok hins'
  have hid' : p.1 ∉ (created H height true cb').map (·.1) := by
    intro ho
    obtain ⟨q, hq, hqp⟩ := List.mem_map.mp ho
    rw [← createdFrom_txid _ _ _ _ _ p hp, ← hqp] at hid
    exact hid (createdFrom_txid _ _ _ _ _ q hq)
  refine ⟨p.1, applyRest_apart ?_ ?_ hrest hrest'⟩
  · rw [hin p hp]
    exact Option.some_ne_none _
  · rw [hother _ hid', hfresh p hp]

/-- With a spendable output the root gives the coinbase away. -/
theorem coinbase_id_of_root {cb cb' : Transaction} {rest : List Transaction} {height fees fees' : UInt64} {u u' : UtxoSet}
    {out : TxOut} (hm : out ∈ cb.outputs) (hout : out.isOpReturn = false) (hsep : Separated H u.rows u'.rows)
    (h : applyBlock H s (cb :: rest) height = .ok (u, fees)) (h' : applyBlock H s (cb' :: rest) height = .ok (u', fees'))
    (heq : u.computeUtxoRoot H = u'.computeUtxoRoot H) : cb.txid H = cb'.txid H := by
  by_contra hid
  obtain ⟨o, hin, hnot⟩ := coinbases_apart hm hout hid h h'
  obtain ⟨e, he⟩ := Option.ne_none_iff_exists'.mp hin
  have hrow : (o, e.output) ∈ u'.rows := by
    rw [← rows_eq_of_root hsep heq]
    exact mem_rows.mpr (by rw [he]; rfl)
  rw [mem_rows, hnot] at hrow
  cases hrow

/-- Coinbases that create nothing leave the same set. -/
theorem applyBlock_unspendable {cb cb' : Transaction} (hcb : cb.isCoinbase = true) (hcb' : cb'.isCoinbase = true)
    (houts : cb.outputs = cb'.outputs) (h : ∀ out ∈ cb.outputs, out.isOpReturn = true) (s : UtxoSet)
    (rest : List Transaction) (height : UInt64) :
    applyBlock H s (cb :: rest) height = applyBlock H s (cb' :: rest) height := by
  have hnone : created H height true cb = [] := createdFrom_eq_nil _ _ _ h 0
  have hnone' : created H height true cb' = [] := createdFrom_eq_nil _ _ _ (houts ▸ h) 0
  simp only [applyBlock, hcb, hcb', applyCoinbase, houts, hnone, hnone', Transaction.totalOutputQuanta]

end UtxoSet

/-! ## The root of the job and the root of the block -/

/-- The set the job's root is computed of. -/
def jobUtxos (H : Hasher) (utxos : UtxoSet) (template : BlockTemplate) (cached : CachedJob) : UtxoSet :=
  match UtxoSet.applyBlock H utxos cached.template.transactions template.height with
  | .ok (prospective, _) => prospective
  | .error _ =>
    match UtxoSet.applyBlock H utxos template.transactions template.height with
    | .ok (prospective, _) => prospective
    | .error _ => utxos

/-- The coinbases of the template, of the job and of the block. -/
def coinbaseStrings (template : BlockTemplate) (cached : CachedJob) (block : Block) : List Bytes :=
  (template.transactions.take 1 ++ cached.template.transactions.take 1 ++ block.transactions.take 1).map
    Transaction.canonicalBytes

theorem jobCoinbase_isCoinbase (height : UInt64) (extranonces : Bytes) (outputs : List TxOut) :
    (jobCoinbase height extranonces outputs).isCoinbase = true := by
  have hnull : OutPoint.null.isNull = true := by decide
  exact hnull

theorem newCoinbase_eq (height : UInt64) (outputs : List TxOut) :
    Transaction.newCoinbase height outputs = jobCoinbase height [] outputs := by
  rw [Transaction.newCoinbase, jobCoinbase, List.append_nil]

theorem jobCoinbase_length (height : UInt64) (extranonces : Bytes) (outputs : List TxOut) :
    (jobCoinbase height extranonces outputs).canonicalBytes.length =
      56 + extranonces.length + (coinbaseTail outputs).length := by
  simp only [jobCoinbase, Transaction.canonicalBytes, TxIn.new, TxIn.canonicalBytes, vecBytes, coinbaseTail,
    OutPoint.toFixedBytes, List.flatMap_cons, List.flatMap_nil, List.append_nil, List.length_append, u32le_length,
    u64le_length, Hash256.size]
  omega

section
variable {chain : ChainTree} {utxos : UtxoSet} {mempool : Mempool} {bits : UInt32} {payout : Bytes} {template : BlockTemplate}
  {tip : BlockNode} {coinbaseValue fees : UInt64} {prospective : UtxoSet} {job : StratumJob} {cached : CachedJob}
  {coinbase : Transaction} {otherTxs : List Transaction}

/-- The template's own block applies, so one of the two coinbases was applied for the root. -/
theorem MadeOf.root_of (h : MadeOf H utxos template job cached coinbase otherTxs)
    (hb : Built H chain utxos mempool bits payout template tip coinbaseValue prospective fees) :
    job.utxoRoot = (jobUtxos H utxos template cached).computeUtxoRoot H ∧
      ∃ extranonces, (extranonces = [] ∨ extranonces = List.replicate 8 0) ∧
        jobCoinbase template.height extranonces coinbase.outputs ∈
          template.transactions.take 1 ++ cached.template.transactions.take 1 ∧
        ∃ fees', UtxoSet.applyBlock H utxos (jobCoinbase template.height extranonces coinbase.outputs :: otherTxs)
          template.height = .ok (jobUtxos H utxos template cached, fees') := by
  have hap := hb.applies
  rw [← hb.height] at hap
  have hown : coinbase = jobCoinbase template.height [] coinbase.outputs := by
    have htxs := h.transactions.symm.trans hb.transactions
    rw [hb.height, (List.cons.inj htxs).1, newCoinbase_eq]
    rfl
  rw [h.utxoRoot, jobUtxoRoot, jobUtxos, h.cachedTxs, hap]
  cases hplace : UtxoSet.applyBlock H utxos (placeholderCoinbase template coinbase :: otherTxs) template.height with
  | ok r => exact ⟨rfl, _, .inr rfl, List.mem_append_right _ (List.mem_singleton_self _), r.2, hplace⟩
  | error e =>
    rw [h.transactions] at hap
    rw [hown] at hap
    refine ⟨hb.root, [], .inl rfl, ?_, fees, hap⟩
    rw [h.transactions, ← hown]
    exact List.mem_append_left _ (List.mem_singleton_self _)

/-- Coinbases with room for different extranonces are different strings. -/
theorem jobCoinbase_ne {height : UInt64} {extranonces extranonces' : Bytes} {outputs : List TxOut}
    (h : extranonces = [] ∨ extranonces = List.replicate 8 0) (h' : extranonces'.length = 8)
    (hne : extranonces' ≠ List.replicate 8 0) :
    (jobCoinbase height extranonces outputs).canonicalBytes ≠ (jobCoinbase height extranonces' outputs).canonicalBytes := by
  intro heq
  rcases h with rfl | rfl
  · have hlen := congrArg List.length heq
    rw [jobCoinbase_length, jobCoinbase_length, h', List.length_nil] at hlen
    omega
  · rw [jobCoinbase_bytes _ List.length_replicate, jobCoinbase_bytes _ h'] at heq
    exact hne (List.append_cancel_left (List.append_cancel_right heq)).symm

/-- For every template the node builds and every pair of extranonces: the header's root is
    the root of the set the assembled block leads to when the extranonces are zeros or the
    payout is a data carrier, and, unless the digest collides, in no other case. -/
theorem stratum_utxo_root_iff {now : UInt64} (ht : buildTemplate H chain utxos mempool bits payout now = .ok template)
    {jobCounter : UInt64} {tipChanged : Bool} (hjob : makeJob H utxos template jobCounter tipChanged = some (job, cached))
    (extranonce1 extranonce2 : Extranonce) (timestamp nonce : UInt64) {block : Block}
    (hblock : assembleBlock (job.candidate H extranonce1 extranonce2 timestamp nonce) cached = .ok block) {u : UtxoSet}
    (hap : UtxoSet.applyBlock H utxos block.transactions template.height = .ok (u, fees)) :
    (extranonce1.1 ++ extranonce2.1 = List.replicate 8 0 ∨ payout.head? = some 0x6a →
        block.header.utxoRoot = u.computeUtxoRoot H) ∧
      (CollisionFree H (coinbaseStrings template cached block) →
        UtxoSet.Separated H (jobUtxos H utxos template cached).rows u.rows →
          block.header.utxoRoot = u.computeUtxoRoot H →
            extranonce1.1 ++ extranonce2.1 = List.replicate 8 0 ∨ payout.head? = some 0x6a) := by
  obtain ⟨tip, coinbaseValue, prospective, fees', hb⟩ := buildTemplate_ok ht
  obtain ⟨coinbase, otherTxs, hmade⟩ := makeJob_ok hjob
  have houts : coinbase.outputs = [⟨coinbaseValue, payout⟩] := by
    have htxs := hmade.transactions.symm.trans hb.transactions
    rw [(List.cons.inj htxs).1]
    rfl
  have hone : 1 ≤ maxVectorLength := by decide
  have hcount : coinbase.outputs.length ≤ maxVectorLength := by
    rw [houts]
    exact hone
  rw [assembleBlock_eq hmade hcount] at hblock
  cases hblock
  have hlen : (extranonce1.1 ++ extranonce2.1).length = 8 := by
    rw [List.length_append, extranonce1.2, extranonce2.2]
  constructor
  · intro hcond
    show job.utxoRoot = _
    have hsame : UtxoSet.applyBlock H utxos (placeholderCoinbase template coinbase :: otherTxs) template.height =
        .ok (u, fees) := by
      rw [← hap]
      rcases hcond with hzero | hcarrier
      · rw [hzero]
        rfl
      · have hcarriers : ∀ out ∈ coinbase.outputs, out.isOpReturn = true := by
          rw [houts]
          intro out hout
          obtain rfl := List.mem_singleton.mp hout
          rw [TxOut.isOpReturn, hcarrier]
          rfl
        exact UtxoSet.applyBlock_unspendable (jobCoinbase_isCoinbase template.height (List.replicate 8 0) coinbase.outputs)
          (jobCoinbase_isCoinbase template.height (extranonce1.1 ++ extranonce2.1) coinbase.outputs) rfl hcarriers _ _ _
    rw [hmade.utxoRoot, jobUtxoRoot, hsame]
  · intro hH hsep heq
    by_contra hcond
    obtain ⟨hne, hspendable⟩ := not_or.mp hcond
    obtain ⟨hroot, extranonces, hextra, hmem, fees', hjobap⟩ := hmade.root_of hb
    have hout : ⟨coinbaseValue, payout⟩ ∈ (jobCoinbase template.height extranonces coinbase.outputs).outputs := by
      rw [houts]
      exact List.mem_singleton_self _
    have hop : (⟨coinbaseValue, payout⟩ : TxOut).isOpReturn = false := by
      rw [TxOut.isOpReturn]
      simpa using hspendable
    have hid := UtxoSet.coinbase_id_of_root hout hop hsep hjobap hap (hroot.symm.trans heq)
    refine jobCoinbase_ne hextra hlen hne (hH _ ?_ _ ?_ hid)
    · exact List.mem_map_of_mem (List.mem_append_left _ hmem)
    · exact List.mem_map_of_mem (List.mem_append_right _ (List.mem_singleton_self _))

end

/-! ### A share on a new chain -/

/-- The template a new chain's pool mines, none standing for a refusal. -/
def firstTemplate (H : Hasher) : BlockTemplate :=
  (buildTemplate H (ChainTree.new H (buildGenesisBlock H easyBits)) UtxoSet.new Mempool.new easyBits [0x51] 60).toOption.getD
    ⟨Hash256.zero, 0, 0, [], Hash256.zero, 0⟩

set_option maxRecDepth 10000 in
/-- The second extranonce 1: the block applies, and its header names another root. -/
theorem counted_extranonce_refused : ∃ job cached block u fees,
    buildTemplate Blake3.digest (ChainTree.new Blake3.digest (buildGenesisBlock Blake3.digest easyBits)) UtxoSet.new
      Mempool.new easyBits [0x51] 60 = .ok (firstTemplate Blake3.digest) ∧
    makeJob Blake3.digest UtxoSet.new (firstTemplate Blake3.digest) 1 true = some (job, cached) ∧
    assembleBlock (job.candidate Blake3.digest ⟨[0, 0, 0, 0], rfl⟩ ⟨[1, 0, 0, 0], rfl⟩ 60 7) cached = .ok block ∧
    UtxoSet.applyBlock Blake3.digest UtxoSet.new block.transactions (firstTemplate Blake3.digest).height = .ok (u, fees) ∧
    block.header.utxoRoot ≠ u.computeUtxoRoot Blake3.digest := by
  have hrun : buildTemplate Blake3.digest (ChainTree.new Blake3.digest (buildGenesisBlock Blake3.digest easyBits)) UtxoSet.new
        Mempool.new easyBits [0x51] 60 = .ok (firstTemplate Blake3.digest) ∧
      (shareBlock Blake3.digest UtxoSet.new (firstTemplate Blake3.digest) ⟨[1, 0, 0, 0], rfl⟩).any (fun r =>
        match UtxoSet.applyBlock Blake3.digest UtxoSet.new r.2.2.transactions (firstTemplate Blake3.digest).height with
        | .ok (u, _) => decide (r.2.2.header.utxoRoot ≠ u.computeUtxoRoot Blake3.digest)
        | .error _ => false) = true := by decide +kernel
  obtain ⟨job, cached, block, hjob, hblock, hp⟩ := shareBlock_some hrun.2
  simp only at hp
  split at hp
  · rename_i u fees hap
    exact ⟨job, cached, block, u, fees, hrun.1, hjob, hblock, hap, of_decide_eq_true hp⟩
  · cases hp

set_option maxRecDepth 10000 in
/-- The extranonces the job was made with. -/
theorem stratum_utxo_root_zeros : ∃ job cached block u fees,
    buildTemplate Blake3.digest (ChainTree.new Blake3.digest (buildGenesisBlock Blake3.digest easyBits)) UtxoSet.new
      Mempool.new easyBits [0x51] 60 = .ok (firstTemplate Blake3.digest) ∧
    makeJob Blake3.digest UtxoSet.new (firstTemplate Blake3.digest) 1 true = some (job, cached) ∧
    assembleBlock (job.candidate Blake3.digest ⟨[0, 0, 0, 0], rfl⟩ ⟨[0, 0, 0, 0], rfl⟩ 60 7) cached = .ok block ∧
    UtxoSet.applyBlock Blake3.digest UtxoSet.new block.transactions (firstTemplate Blake3.digest).height = .ok (u, fees) ∧
    (CollisionFree Blake3.digest (coinbaseStrings (firstTemplate Blake3.digest) cached block) ∧
      UtxoSet.Separated Blake3.digest (jobUtxos Blake3.digest UtxoSet.new (firstTemplate Blake3.digest) cached).rows u.rows) ∧
    block.header.utxoRoot = u.computeUtxoRoot Blake3.digest := by
  have hrun : buildTemplate Blake3.digest (ChainTree.new Blake3.digest (buildGenesisBlock Blake3.digest easyBits)) UtxoSet.new
        Mempool.new easyBits [0x51] 60 = .ok (firstTemplate Blake3.digest) ∧
      (shareBlock Blake3.digest UtxoSet.new (firstTemplate Blake3.digest) ⟨[0, 0, 0, 0], rfl⟩).any (fun r =>
        match UtxoSet.applyBlock Blake3.digest UtxoSet.new r.2.2.transactions (firstTemplate Blake3.digest).height with
        | .ok (u, _) => decide (CollisionFree Blake3.digest (coinbaseStrings (firstTemplate Blake3.digest) r.2.1 r.2.2) ∧
            UtxoSet.Separated Blake3.digest
              (jobUtxos Blake3.digest UtxoSet.new (firstTemplate Blake3.digest) r.2.1).rows u.rows)
        | .error _ => false) = true := by decide +kernel
  obtain ⟨job, cached, block, hjob, hblock, hp⟩ := shareBlock_some hrun.2
  simp only at hp
  split at hp
  · rename_i u fees hap
    exact ⟨job, cached, block, u, fees, hrun.1, hjob, hblock, hap, of_decide_eq_true hp,
      (stratum_utxo_root_iff hrun.1 hjob _ _ 60 7 hblock hap).1 (.inl rfl)⟩
  · cases hp

end Scytale
