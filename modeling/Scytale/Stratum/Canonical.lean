/-
  Scytale.Stratum.Canonical — what a share is rebuilt from is canonical
  (apps/scytale-node/src/stratum_service.rs, crates/scytale-stratum/src/header.rs and job.rs).

  The broadcaster cuts the coinbase at bytes 56 and 64 of its canonical encoding, where the
  extranonces stand; a worker's header is laid out by a codec of its own.
  - `fromBytes_iff`: the two codecs of a header read and write the same bytes.
  - `stratum_reconstruction`: with the extranonces filled in, what a share names decodes as the
    coinbase that carries them and its header. Only the reader bounds the number of outputs:
    `oversized_coinbase_undecodable`.
-/
import Scytale.Stratum.Candidates
import Scytale.Stratum.Root

namespace Scytale

open Lib

variable {H : Hasher}

/-! ## Headers -/

namespace RawBlockHeader120

/-- `From<BlockHeader> for RawBlockHeader120`. -/
def ofBlockHeader (header : BlockHeader) : RawBlockHeader120 :=
  ⟨header.version, header.previousBlockHash, header.transactionCommitment, header.utxoRoot, header.timestamp,
    header.difficultyTarget, header.nonce⟩

/-- The fields at their places in 120 bytes. -/
def fromBytes (bytes : Bytes) : Except StratumError RawBlockHeader120 :=
  if h : bytes.length = 120 then
    .ok ⟨UInt32.ofNat (leNat (bytes.take 4)), ⟨(bytes.drop 4).take 32, by simp [h]⟩, ⟨(bytes.drop 36).take 32, by simp [h]⟩,
      ⟨(bytes.drop 68).take 32, by simp [h]⟩, UInt64.ofNat (leNat ((bytes.drop 100).take 8)),
      UInt32.ofNat (leNat ((bytes.drop 108).take 4)), UInt64.ofNat (leNat ((bytes.drop 112).take 8))⟩
  else .error (.protocol ("Invalid header length: expected 120 bytes, got " ++ toString bytes.length))

@[simp] theorem toBlockHeader_ofBlockHeader (header : BlockHeader) : (ofBlockHeader header).toBlockHeader = header := rfl

@[simp] theorem ofBlockHeader_toBlockHeader (raw : RawBlockHeader120) : ofBlockHeader raw.toBlockHeader = raw := rfl

theorem serialize_inj {a b : RawBlockHeader120} (h : a.serialize = b.serialize) : a = b := by
  rw [serialize_eq, serialize_eq] at h
  have ha := blockHeader_reads.reads a.toBlockHeader [] trivial
  have hb := blockHeader_reads.reads b.toBlockHeader [] trivial
  rw [h, hb] at ha
  have heq : b.toBlockHeader = a.toBlockHeader := congrArg Prod.fst (Except.ok.inj ha)
  rw [← ofBlockHeader_toBlockHeader a, ← heq, ofBlockHeader_toBlockHeader]

theorem serialize_length (raw : RawBlockHeader120) : raw.serialize.length = 120 := by
  simp [serialize, Hash256.size]

/-- What is read is written back. -/
theorem fromBytes_ok {bytes : Bytes} {raw : RawBlockHeader120} (h : fromBytes bytes = .ok raw) : raw.serialize = bytes := by
  unfold fromBytes at h
  split at h
  · rename_i hlen
    cases h
    have hcut : ∀ i k : Nat, bytes.drop i = (bytes.drop i).take k ++ bytes.drop (i + k) := fun i k => by
      rw [← List.drop_drop, List.take_append_drop]
    have hlast : (bytes.drop 112).take 8 = bytes.drop 112 := List.take_of_length_le (by simp [hlen])
    simp only [serialize, List.append_assoc]
    rw [u32le_leNat (by simp [hlen]), u64le_leNat (by simp [hlen]), u32le_leNat (by simp [hlen]),
      u64le_leNat (by simp [hlen]), hlast, ← hcut 108 4, ← hcut 100 8, ← hcut 68 32, ← hcut 36 32, ← hcut 4 32,
      List.take_append_drop]
  · cases h

theorem fromBytes_serialize (raw : RawBlockHeader120) : fromBytes raw.serialize = .ok raw := by
  cases h : fromBytes raw.serialize with
  | error e =>
    rw [fromBytes, dif_pos raw.serialize_length] at h
    cases h
  | ok raw' => rw [serialize_inj (fromBytes_ok h)]

/-- The two codecs read the same header off the same bytes. -/
theorem fromBytes_iff {bytes : Bytes} {raw : RawBlockHeader120} :
    fromBytes bytes = .ok raw ↔ Decoder.blockHeader.fromCanonicalBytes bytes = .ok raw.toBlockHeader := by
  have hreads := blockHeader_reads.reads raw.toBlockHeader [] trivial
  rw [List.append_nil] at hreads
  constructor
  · intro h
    rw [← fromBytes_ok h, serialize_eq, Decoder.fromCanonicalBytes, hreads]
  · intro h
    obtain ⟨-, hbytes⟩ := blockHeader_reads.exact (fromCanonicalBytes_ok h)
    rw [hbytes, List.append_nil, ← serialize_eq]
    exact fromBytes_serialize raw

end RawBlockHeader120

/-! ## Shares -/

variable {utxos : UtxoSet} {template : BlockTemplate} {jobCounter : UInt64} {tipChanged : Bool} {job : StratumJob}
  {cached : CachedJob}

theorem makeJob_madeOf {coinbase : Transaction} {otherTxs : List Transaction}
    (hjob : makeJob H utxos template jobCounter tipChanged = some (job, cached))
    (htxs : template.transactions = coinbase :: otherTxs) : MadeOf H utxos template job cached coinbase otherTxs := by
  obtain ⟨coinbase', otherTxs', hmade⟩ := makeJob_ok hjob
  obtain ⟨rfl, rfl⟩ := List.cons.inj (htxs.symm.trans hmade.transactions)
  exact hmade

/-- For every job, whatever the extranonces: the bytes a share names decode as the coinbase with
    the height and the extranonces for its authorization and the template's outputs, and the
    root is built on its identifier; and the job header has the bytes of the header it becomes,
    in both codecs. -/
theorem stratum_reconstruction {coinbase : Transaction} {otherTxs : List Transaction}
    (hjob : makeJob H utxos template jobCounter tipChanged = some (job, cached))
    (htxs : template.transactions = coinbase :: otherTxs) (hlimit : coinbase.outputs.length ≤ maxVectorLength)
    (extranonce1 extranonce2 : Extranonce) (timestamp nonce : UInt64) :
    let rebuilt := jobCoinbase template.height (extranonce1.val ++ extranonce2.val) coinbase.outputs
    let raw := job.shareHeader H extranonce1 extranonce2 timestamp nonce
    Decoder.transaction.fromCanonicalBytes (job.rawCoinbase extranonce1 extranonce2) = .ok rebuilt ∧
      rebuilt.txid H = H (job.rawCoinbase extranonce1 extranonce2) ∧
      job.buildMerkleRoot H extranonce1 extranonce2 = job.merkleBranches.foldl
        (fun currentHash branch => H (StratumJob.branchString currentHash branch)) (rebuilt.txid H) ∧
      raw.serialize = raw.toBlockHeader.canonicalBytes ∧ RawBlockHeader120.ofBlockHeader raw.toBlockHeader = raw ∧
      RawBlockHeader120.fromBytes raw.toBlockHeader.canonicalBytes = .ok raw ∧
      Decoder.blockHeader.fromCanonicalBytes raw.serialize = .ok raw.toBlockHeader := by
  intro rebuilt raw
  have hmade := makeJob_madeOf hjob htxs
  have hbytes : job.rawCoinbase extranonce1 extranonce2 = rebuilt.canonicalBytes := hmade.rawCoinbase extranonce1 extranonce2
  have hdec : rebuilt.decodable = true := hmade.decodable hlimit extranonce1 extranonce2
  have htxid : rebuilt.txid H = H (job.rawCoinbase extranonce1 extranonce2) := by rw [hbytes]; rfl
  have hreads := transaction_reads.reads rebuilt [] hdec
  rw [List.append_nil] at hreads
  refine ⟨?_, htxid, ?_, rfl, rfl, RawBlockHeader120.fromBytes_serialize raw, ?_⟩
  · rw [hbytes, Decoder.fromCanonicalBytes, hreads]
  · rw [htxid, StratumJob.buildMerkleRoot]
  · exact RawBlockHeader120.fromBytes_iff.mp (RawBlockHeader120.fromBytes_serialize raw)

/-! ### Coinbases of one output and of too many -/

/-- A job is made of every template whose transactions can be encoded. -/
theorem makeJob_some (H : Hasher) (utxos : UtxoSet) (template : BlockTemplate) (jobCounter : UInt64) (tipChanged : Bool)
    {coinbase : Transaction} (htxs : template.transactions = [coinbase])
    (henc : (placeholderCoinbase template coinbase).encodable = true) :
    ∃ job cached, makeJob H utxos template jobCounter tipChanged = some (job, cached) := by
  have hzeros : (List.replicate 8 (0 : UInt8)).length = 8 := rfl
  have hlong : ¬(placeholderCoinbase template coinbase).canonicalBytes.length < 64 := by
    rw [placeholderCoinbase, jobCoinbase_bytes _ hzeros]
    simp only [List.length_append, coinbaseHead_length, hzeros]
    omega
  simp only [makeJob, htxs, List.all_nil, Bool.not_true, Bool.false_eq_true, if_false,
    Transaction.toCanonicalBytes_of_encodable henc, if_neg hlong]
  exact ⟨_, _, rfl⟩

/-- A candidate whose coinbase has these outputs, and nothing behind it. -/
def payingTemplate (outputs : List TxOut) : BlockTemplate :=
  ⟨Hash256.zero, 2, 0x207fffff, [Transaction.newCoinbase 2 outputs], Hash256.zero, 60⟩

theorem stratum_reconstruction_one : ∃ job cached,
    makeJob Blake3.digest openOutputs (payingTemplate [⟨600, [0x51]⟩]) 1 true = some (job, cached) ∧
      Decoder.transaction.fromCanonicalBytes (job.rawCoinbase [0, 0, 0, 0] [1, 2, 3, 4]) =
        .ok (jobCoinbase 2 [0, 0, 0, 0, 1, 2, 3, 4] [⟨600, [0x51]⟩]) := by
  obtain ⟨job, cached, hjob⟩ := makeJob_some Blake3.digest openOutputs (payingTemplate [⟨600, [0x51]⟩]) 1 true rfl
    (by decide)
  exact ⟨job, cached, hjob, (stratum_reconstruction hjob rfl (by decide) ⟨[0, 0, 0, 0], rfl⟩ ⟨[1, 2, 3, 4], rfl⟩ 60 7).1⟩

/-- One output more than a reader takes. -/
def tooManyOutputs : List TxOut := List.replicate (maxVectorLength + 1) ⟨1, []⟩

theorem tooManyOutputs_encodable (extranonces : Bytes) (h : extranonces.length = 8) :
    (jobCoinbase 2 extranonces tooManyOutputs).encodable = true := by
  have hauth : 8 + extranonces.length ≤ maxVectorLength := by rw [h]; decide
  have houts : ∀ o ∈ tooManyOutputs, o.encodable = true := by
    intro o ho
    rw [List.eq_of_mem_replicate ho]
    decide
  simp only [jobCoinbase, Transaction.encodable, Bool.and_eq_true, List.all_eq_true]
  exact ⟨by simp [TxIn.encodable, TxIn.new, hauth], houts⟩

/-- A job is made of such a template, and its coinbase cannot be read. -/
theorem oversized_coinbase_undecodable : ∃ job cached,
    makeJob Blake3.digest openOutputs (payingTemplate tooManyOutputs) 1 true = some (job, cached) ∧
      ∀ t, Decoder.transaction.fromCanonicalBytes (job.rawCoinbase [0, 0, 0, 0] [1, 2, 3, 4]) ≠ .ok t := by
  have hplaceholder := tooManyOutputs_encodable (List.replicate 8 0) rfl
  obtain ⟨job, cached, hjob⟩ := makeJob_some Blake3.digest openOutputs (payingTemplate tooManyOutputs) 1 true rfl
    hplaceholder
  refine ⟨job, cached, hjob, fun t ht => ?_⟩
  have hbytes := (makeJob_madeOf hjob rfl).rawCoinbase ⟨[0, 0, 0, 0], rfl⟩ ⟨[1, 2, 3, 4], rfl⟩
  obtain ⟨hdec, hread⟩ := transaction_reads.exact (fromCanonicalBytes_ok ht)
  rw [List.append_nil] at hread
  have hlimits := t.decodable_iff.mp hdec
  have hsized : t.sized := by
    have := maxVectorLength_lt
    exact ⟨by omega, by omega⟩
  have heq : t = jobCoinbase 2 ([0, 0, 0, 0] ++ [1, 2, 3, 4]) tooManyOutputs := by
    refine Transaction.canonicalBytes_inj (Transaction.encodable_of_decodable hdec)
      (tooManyOutputs_encodable _ rfl) hsized ⟨by decide, ?_⟩ (hread.symm.trans hbytes)
    show tooManyOutputs.length < 2 ^ 32
    rw [tooManyOutputs, List.length_replicate]
    decide
  have hcount : t.outputs.length = maxVectorLength + 1 := by
    rw [heq]
    exact List.length_replicate ..
  omega

end Scytale
