/-
  Scytale.Stratum.Service — the node's pool bridge (apps/scytale-node/src/stratum_service.rs).

  `makeJob` is a round of the job broadcaster: the template's coinbase is replaced by one
  with room for the extranonces, the root is computed of the block with zeros there, and
  the coinbase's bytes are cut around that room. `assembleBlock` is what the ingestion task
  does with a share: it decodes the coinbase with the extranonces filled in. A job and its
  cache entry are made together, under a fresh id, so a share finds the transactions its
  job was made of.
  - `makeJob_ok`: everything a job that was made is.
  - `assembleBlock_ok`: everything an assembled block is.
  - `stratum_commitment_iff`: the folded root is the consensus commitment exactly when the
    template has at most one transaction behind its coinbase.
-/
import Scytale.Stratum.Job
import Scytale.Core.Codec
import Scytale.Mining.Template
import Scytale.Blake3

namespace Scytale

open Lib

/-- A session's extranonce is four zero bytes; of the other one `dispatch_rpc` takes four
    bytes and nothing else. -/
abbrev Extranonce := {bs : Bytes // bs.length = 4}

theorem zeroBytes_length : ([0, 0, 0, 0] : Bytes).length = 4 := rfl

structure BlockFoundEvent where
  header : RawBlockHeader120
  job : StratumJob
  extranonce1 : Extranonce
  extranonce2 : Extranonce
  deriving DecidableEq

structure CachedJob where
  jobId : String
  template : BlockTemplate
  otherTxs : List Transaction
  deriving DecidableEq

/-- `format!("{:x}")` of the job counter. -/
def jobIdOf (counter : UInt64) : String := String.ofList (Nat.toDigits 16 counter.toNat)

/-- The coinbase of a job: the height, then what stands for the extranonces. -/
def jobCoinbase (height : UInt64) (extranonces : Bytes) (outputs : List TxOut) : Transaction :=
  ⟨transactionVersion1, [TxIn.new OutPoint.null (u64le height ++ extranonces)], outputs, 0⟩

/-- The coinbase with zeros for the extranonces. -/
def placeholderCoinbase (template : BlockTemplate) (coinbase : Transaction) : Transaction :=
  jobCoinbase template.height (List.replicate 8 0) coinbase.outputs

section
variable (H : Hasher)

/-- The candidate block `verify_worker_share` reports, whatever its hash. -/
def StratumJob.candidate (job : StratumJob) (extranonce1 extranonce2 : Extranonce) (timestamp nonce : UInt64) :
    BlockFoundEvent :=
  ⟨job.buildHeader (job.buildMerkleRoot H extranonce1 extranonce2) timestamp nonce, job, extranonce1, extranonce2⟩

/-- The template's root, recomputed where the block with zeros for the extranonces applies. -/
def jobUtxoRoot (utxos : UtxoSet) (template : BlockTemplate) (transactions : List Transaction) : Hash256 :=
  match UtxoSet.applyBlock H utxos transactions template.height with
  | .ok (prospective, _) => prospective.computeUtxoRoot H
  | .error _ => template.utxoRoot

def jobMerkleBranches (otherHashes : List Hash256) : List Hash256 :=
  match otherHashes with
  | [] => [Hash256.zero]
  | [hash] => [hash]
  | _ => StratumJob.calculateMerkleBranches H otherHashes

/-- A round that panics or makes no job is `none`: a template without a coinbase, a
    transaction that cannot be encoded, a coinbase that is too short to be cut. -/
def makeJob (utxos : UtxoSet) (template : BlockTemplate) (jobCounter : UInt64) (tipChanged : Bool) :
    Option (StratumJob × CachedJob) :=
  match template.transactions with
  | [] => none
  | coinbase :: otherTxs =>
    let cbTx := placeholderCoinbase template coinbase
    if !otherTxs.all Transaction.encodable then none
    else match cbTx.toCanonicalBytes with
      | .error _ => none
      | .ok cbBytes =>
        if cbBytes.length < 64 then none
        else
          let utxoRoot := jobUtxoRoot H utxos template (cbTx :: otherTxs)
          let jid := jobIdOf jobCounter
          some (⟨jid, template.previousBlockHash, cbBytes.take 56, cbBytes.drop 64,
              jobMerkleBranches H (otherTxs.map fun t => t.txid H), 1, template.compactTarget, utxoRoot,
              template.timestamp, tipChanged⟩,
            ⟨jid, { template with transactions := cbTx :: otherTxs, utxoRoot }, otherTxs⟩)

/-- The ingestion of a share: the coinbase is decoded from the job's halves and the
    extranonces. -/
def assembleBlock (event : BlockFoundEvent) (cached : CachedJob) : Except SerializationError Block :=
  match Decoder.transaction.fromCanonicalBytes (event.job.rawCoinbase event.extranonce1 event.extranonce2) with
  | .error e => .error e
  | .ok coinbaseTx => .ok ⟨event.header.toBlockHeader, coinbaseTx :: cached.otherTxs⟩

end

variable {H : Hasher}

/-! ## What a job and its blocks are -/

structure MadeOf (H : Hasher) (utxos : UtxoSet) (template : BlockTemplate) (job : StratumJob) (cached : CachedJob)
    (coinbase : Transaction) (otherTxs : List Transaction) : Prop where
  transactions : template.transactions = coinbase :: otherTxs
  encodable : (placeholderCoinbase template coinbase).encodable = true
  coinbase1 : job.coinbase1 = (placeholderCoinbase template coinbase).canonicalBytes.take 56
  coinbase2 : job.coinbase2 = (placeholderCoinbase template coinbase).canonicalBytes.drop 64
  branches : job.merkleBranches = jobMerkleBranches H (otherTxs.map fun t => t.txid H)
  utxoRoot : job.utxoRoot = jobUtxoRoot H utxos template (placeholderCoinbase template coinbase :: otherTxs)
  cachedTxs : cached.template.transactions = placeholderCoinbase template coinbase :: otherTxs
  otherTxs : cached.otherTxs = otherTxs

theorem makeJob_ok {utxos : UtxoSet} {template : BlockTemplate} {jobCounter : UInt64} {tipChanged : Bool}
    {job : StratumJob} {cached : CachedJob} (h : makeJob H utxos template jobCounter tipChanged = some (job, cached)) :
    ∃ coinbase otherTxs, MadeOf H utxos template job cached coinbase otherTxs := by
  unfold makeJob at h
  split at h
  · cases h
  · rename_i coinbase otherTxs htxs
    simp only at h
    split at h
    · cases h
    · split at h
      · cases h
      · rename_i cbBytes hbytes
        split at h
        · cases h
        · cases h
          have henc := Transaction.encodable_of_toCanonicalBytes hbytes
          rw [Transaction.toCanonicalBytes_of_encodable henc] at hbytes
          cases hbytes
          exact ⟨coinbase, otherTxs, htxs, henc, rfl, rfl, rfl, rfl, rfl, rfl⟩

/-- The coinbase of an assembled block is encoded as the bytes the job's root hashes. -/
theorem assembleBlock_ok {event : BlockFoundEvent} {cached : CachedJob} {block : Block}
    (h : assembleBlock event cached = .ok block) : ∃ coinbase, block = ⟨event.header.toBlockHeader, coinbase :: cached.otherTxs⟩ ∧
      coinbase.decodable = true ∧ coinbase.canonicalBytes = event.job.rawCoinbase event.extranonce1 event.extranonce2 := by
  unfold assembleBlock at h
  split at h
  · cases h
  · rename_i coinbase hcb
    cases h
    obtain ⟨hdec, hbytes⟩ := transaction_reads.exact (fromCanonicalBytes_ok hcb)
    exact ⟨coinbase, rfl, hdec, by rw [hbytes, List.append_nil]⟩

/-! ## The commitment -/

theorem transactionCommitment_cons (header : BlockHeader) (coinbase : Transaction) (otherTxs : List Transaction) :
    transactionCommitment H ⟨header, coinbase :: otherTxs⟩ =
      H ((coinbase.txid H).bytes ++ otherTxs.flatMap fun t => (t.txid H).bytes) := rfl

/-- The string the commitment digests: one identifier of 32 bytes for each transaction. -/
def commitmentString (H : Hasher) (b : Block) : Bytes := b.transactions.flatMap fun t => (t.txid H).bytes

theorem commitmentString_length (H : Hasher) (b : Block) : (commitmentString H b).length = 32 * b.transactions.length := by
  rw [commitmentString, List.length_flatMap]
  simp only [Hash256.size, List.map_const', List.sum_replicate, smul_eq_mul]
  exact Nat.mul_comm _ _

/-- The transactions whose identifiers the branches carry one for one: at most one behind the
    coinbase, whose identifier is not the digest that stands for no branch. -/
def Foldable (H : Hasher) (otherTxs : List Transaction) : Prop :=
  otherTxs = [] ∨ ∃ t, otherTxs = [t] ∧ t.txid H ≠ Hash256.zero

theorem jobMerkleBranches_ne_nil (hashes : List Hash256) : jobMerkleBranches H hashes ≠ [] := by
  unfold jobMerkleBranches
  split
  · exact List.cons_ne_nil _ _
  · exact List.cons_ne_nil _ _
  · rename_i hne _
    exact StratumJob.calculateMerkleBranches_ne_nil hne

/-- One branch at most, and it is the other identifier. -/
theorem Foldable.root_eq {job : StratumJob} {otherTxs : List Transaction} (h : Foldable H otherTxs)
    (hb : job.merkleBranches = jobMerkleBranches H (otherTxs.map fun t => t.txid H)) (extranonce1 extranonce2 : Bytes) :
    job.buildMerkleRoot H extranonce1 extranonce2 =
      H ((H (job.rawCoinbase extranonce1 extranonce2)).bytes ++ otherTxs.flatMap fun t => (t.txid H).bytes) := by
  rcases h with rfl | ⟨t, rfl, ht⟩
  · rw [StratumJob.buildMerkleRoot, hb]
    simp [jobMerkleBranches, StratumJob.branchString]
  · rw [StratumJob.buildMerkleRoot, hb]
    simp [jobMerkleBranches, StratumJob.branchString, ht]

/-- A root that is the commitment has as many identifiers under it as the last fold hashes. -/
theorem foldable_of_root_eq {job : StratumJob} {otherTxs : List Transaction} {header : BlockHeader} {coinbase : Transaction}
    (hb : job.merkleBranches = jobMerkleBranches H (otherTxs.map fun t => t.txid H)) {extranonce1 extranonce2 : Bytes}
    (hH : CollisionFree H (commitmentString H ⟨header, coinbase :: otherTxs⟩ :: job.merkleStrings H extranonce1 extranonce2))
    (h : job.buildMerkleRoot H extranonce1 extranonce2 = transactionCommitment H ⟨header, coinbase :: otherTxs⟩) :
    Foldable H otherTxs := by
  have hne : job.merkleBranches ≠ [] := by
    rw [hb]
    exact jobMerkleBranches_ne_nil _
  obtain ⟨bs, hbs, hroot, hlen⟩ := StratumJob.buildMerkleRoot_hashed (H := H) hne extranonce1 extranonce2
  have hstring : bs = commitmentString H ⟨header, coinbase :: otherTxs⟩ :=
    hH _ (List.mem_cons_of_mem _ hbs) _ List.mem_cons_self (hroot.symm.trans h)
  have hcount := commitmentString_length H ⟨header, coinbase :: otherTxs⟩
  rw [← hstring, List.length_cons] at hcount
  match otherTxs, hb with
  | [], _ => exact .inl rfl
  | [t], hb =>
    refine .inr ⟨t, rfl, fun hzero => ?_⟩
    -- a zero branch is left out, so the one fold hashes the coinbase's digest alone
    simp only [StratumJob.merkleStrings, hb, jobMerkleBranches, List.map_cons, List.map_nil, StratumJob.branchStrings,
      StratumJob.branchString, hzero, if_true, List.append_nil, List.mem_singleton] at hbs
    rw [hbs, Hash256.size] at hcount
    simp at hcount
  | t :: t' :: rest, _ =>
    simp only [List.length_cons] at hcount
    omega

/-- Whatever the template and the extranonces: with at most one transaction behind the
    coinbase the root a job's shares carry is the commitment consensus recomputes, and,
    unless the digest collides, with more it is not. -/
theorem stratum_commitment_iff {utxos : UtxoSet} {template : BlockTemplate} {jobCounter : UInt64} {tipChanged : Bool}
    {job : StratumJob} {cached : CachedJob} (hjob : makeJob H utxos template jobCounter tipChanged = some (job, cached))
    (extranonce1 extranonce2 : Extranonce) (timestamp nonce : UInt64) {block : Block}
    (hblock : assembleBlock (job.candidate H extranonce1 extranonce2 timestamp nonce) cached = .ok block) :
    (Foldable H template.transactions.tail →
        job.buildMerkleRoot H extranonce1 extranonce2 = transactionCommitment H block) ∧
      (CollisionFree H (commitmentString H block :: job.merkleStrings H extranonce1 extranonce2) →
        job.buildMerkleRoot H extranonce1 extranonce2 = transactionCommitment H block →
          Foldable H template.transactions.tail) := by
  obtain ⟨cb, otherTxs, hmade⟩ := makeJob_ok hjob
  obtain ⟨coinbase, rfl, -, hbytes⟩ := assembleBlock_ok hblock
  rw [hmade.otherTxs, hmade.transactions, List.tail_cons]
  refine ⟨fun hfold => ?_, fun hH h => foldable_of_root_eq hmade.branches hH h⟩
  rw [hfold.root_eq hmade.branches, transactionCommitment_cons, Transaction.txid, hbytes]
  rfl

/-! ### Pools of one and of two transactions -/

/-- The block of a share at the first extranonce the server hands out. -/
def shareBlock (H : Hasher) (utxos : UtxoSet) (template : BlockTemplate) (extranonce2 : Extranonce) :
    Option (StratumJob × CachedJob × Block) :=
  (makeJob H utxos template 1 true).bind fun made =>
    (assembleBlock (made.1.candidate H ⟨[0, 0, 0, 0], rfl⟩ extranonce2 60 7) made.2).toOption.map fun block =>
      (made.1, made.2, block)

theorem shareBlock_some {utxos : UtxoSet} {template : BlockTemplate} {extranonce2 : Extranonce}
    {p : StratumJob × CachedJob × Block → Bool} (h : (shareBlock H utxos template extranonce2).any p = true) :
    ∃ job cached block, makeJob H utxos template 1 true = some (job, cached) ∧
      assembleBlock (job.candidate H ⟨[0, 0, 0, 0], rfl⟩ extranonce2 60 7) cached = .ok block ∧
      p (job, cached, block) = true := by
  unfold shareBlock at h
  cases hjob : makeJob H utxos template 1 true with
  | none => rw [hjob] at h; cases h
  | some made =>
    obtain ⟨job, cached⟩ := made
    rw [hjob, Option.bind_some] at h
    cases hblock : assembleBlock (job.candidate H ⟨[0, 0, 0, 0], rfl⟩ extranonce2 60 7) cached with
    | error e => rw [hblock] at h; cases h
    | ok block =>
      rw [hblock] at h
      exact ⟨job, cached, block, rfl, hblock, h⟩

/-- Two outputs, in the names of two one-byte scripts. -/
def openOutputs : UtxoSet :=
  ⟨((∅ : Table OutPoint UtxoEntry).insert ⟨Hash256.zero, 0⟩ ⟨⟨700, [0x51]⟩, 1, false⟩).insert ⟨Hash256.zero, 1⟩
    ⟨⟨800, [0x52]⟩, 1, false⟩⟩

/-- The output at an index, spent whole. -/
def spendOf (index : UInt32) (value : UInt64) : Transaction :=
  ⟨transactionVersion1, [TxIn.new ⟨Hash256.zero, index⟩ []], [⟨value, [0x53]⟩], 0⟩

/-- A candidate at height 2 with the given transactions behind its coinbase. -/
def poolTemplate (H : Hasher) (otherTxs : List Transaction) : BlockTemplate :=
  let transactions := Transaction.newCoinbase 2 [⟨600, [0x51]⟩] :: otherTxs
  let unrooted : BlockTemplate := ⟨Hash256.zero, 2, 0x207fffff, transactions, Hash256.zero, 60⟩
  { unrooted with utxoRoot := jobUtxoRoot H openOutputs unrooted transactions }

set_option maxRecDepth 10000 in
/-- With two spends the pool's root is not the block's commitment, though the block applies. -/
theorem two_spends_disagree : ∃ job cached block,
    makeJob Blake3.digest openOutputs (poolTemplate Blake3.digest [spendOf 0 700, spendOf 1 800]) 1 true = some (job, cached) ∧
    assembleBlock (job.candidate Blake3.digest ⟨[0, 0, 0, 0], rfl⟩ ⟨[0, 0, 0, 0], rfl⟩ 60 7) cached = .ok block ∧
    (∃ r, UtxoSet.applyBlock Blake3.digest openOutputs block.transactions 2 = .ok r) ∧
    job.buildMerkleRoot Blake3.digest [0, 0, 0, 0] [0, 0, 0, 0] ≠ transactionCommitment Blake3.digest block := by
  have hrun : (shareBlock Blake3.digest openOutputs (poolTemplate Blake3.digest [spendOf 0 700, spendOf 1 800])
      ⟨[0, 0, 0, 0], rfl⟩).any (fun r => (UtxoSet.applyBlock Blake3.digest openOutputs r.2.2.transactions 2).isOk &&
        decide (r.1.buildMerkleRoot Blake3.digest [0, 0, 0, 0] [0, 0, 0, 0] ≠ transactionCommitment Blake3.digest r.2.2)) =
      true := by decide +kernel
  obtain ⟨job, cached, block, hjob, hblock, hp⟩ := shareBlock_some hrun
  obtain ⟨happlies, hne⟩ := Bool.and_eq_true_iff.mp hp
  refine ⟨job, cached, block, hjob, hblock, ?_, of_decide_eq_true hne⟩
  cases hap : UtxoSet.applyBlock Blake3.digest openOutputs block.transactions 2 with
  | error e => rw [hap] at happlies; cases happlies
  | ok r => exact ⟨r, rfl⟩

set_option maxRecDepth 10000 in
/-- With one spend the two are one. -/
theorem stratum_commitment_one : ∃ job cached block,
    makeJob Blake3.digest openOutputs (poolTemplate Blake3.digest [spendOf 0 700]) 1 true = some (job, cached) ∧
    assembleBlock (job.candidate Blake3.digest ⟨[0, 0, 0, 0], rfl⟩ ⟨[1, 2, 3, 4], rfl⟩ 60 7) cached = .ok block ∧
    (CollisionFree Blake3.digest (commitmentString Blake3.digest block ::
      job.merkleStrings Blake3.digest [0, 0, 0, 0] [1, 2, 3, 4])) ∧
    job.buildMerkleRoot Blake3.digest [0, 0, 0, 0] [1, 2, 3, 4] = transactionCommitment Blake3.digest block := by
  have hrun : (shareBlock Blake3.digest openOutputs (poolTemplate Blake3.digest [spendOf 0 700])
      ⟨[1, 2, 3, 4], rfl⟩).any (fun r => decide (CollisionFree Blake3.digest (commitmentString Blake3.digest r.2.2 ::
        r.1.merkleStrings Blake3.digest [0, 0, 0, 0] [1, 2, 3, 4]))) = true := by decide +kernel
  have hid : (spendOf 0 700).txid Blake3.digest ≠ Hash256.zero := by decide +kernel
  obtain ⟨job, cached, block, hjob, hblock, hp⟩ := shareBlock_some hrun
  exact ⟨job, cached, block, hjob, hblock, of_decide_eq_true hp,
    (stratum_commitment_iff hjob _ _ 60 7 hblock).1 (.inr ⟨_, rfl, hid⟩)⟩

end Scytale
