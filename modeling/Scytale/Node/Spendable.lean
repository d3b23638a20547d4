/-
  Scytale.Node.Spendable — which spends the scripts let through
  (crates/scytale-core/src/authorization.rs and transaction.rs, apps/scytale-node/src/node.rs).

  The pool judges a transaction by the entries it resolved, a block's check by the set. Both
  go through the inputs, pass over contract locks and ask the same engine; a block's check
  takes a coinbase without a look, and an empty authorization for an unlocking script.
  - `authorization_iff_scripts`: no coinbase apart, the two verdicts are one.
  - `publicKey_spendable_iff`: a lock that names a public key is no contract, so its bytes are
    run as a script, and no unlocking script gets past them.
-/
import Scytale.Node.VerifierHeight
import Scytale.Script.P2pkh

namespace Scytale

open Lib

variable {H : Hasher} {eng : Engines}

/-! ## Admission and blocks -/

/-- The entries the inputs spend, if the set holds them all. -/
def UtxoSet.resolve (s : UtxoSet) (inputs : List TxIn) : Option (List UtxoEntry) :=
  inputs.mapM fun i => s.entries[i.previousOutput]?

theorem consensusScriptVerifier_ok {height : UInt64} {digest : Hash256} {lock proof : Bytes} :
    consensusScriptVerifier eng height digest lock proof = .ok () ↔
      isContractLock lock = true ∨ eng.execute proof lock digest height = .ok true := by
  unfold consensusScriptVerifier
  by_cases hlock : isContractLock lock = true
  · simp [hlock]
  · simp only [hlock, Bool.false_eq_true, if_false, false_or]
    split <;> simp_all

theorem verifyAuthorizations_cons {tx : Transaction} {verifier : AuthorizationVerifier} {idx : Nat} {input : TxIn}
    {entry : UtxoEntry} {rest : List (TxIn × UtxoEntry)} :
    verifyAuthorizations H tx verifier idx ((input, entry) :: rest) = .ok () ↔
      input.authorization ≠ [] ∧
        verifier (tx.computeSighash H idx entry.output.lockingCondition) entry.output.lockingCondition
          input.authorization = .ok () ∧
        verifyAuthorizations H tx verifier (idx + 1) rest = .ok () := by
  rw [verifyAuthorizations]
  by_cases hauth : input.authorization = []
  · simp [hauth]
  · rw [if_neg (by simpa using hauth)]
    split <;> simp_all

theorem UtxoSet.resolve_cons {s : UtxoSet} {input : TxIn} {inputs : List TxIn} {es : List UtxoEntry} :
    s.resolve (input :: inputs) = some es ↔
      ∃ entry rest, s.entries[input.previousOutput]? = some entry ∧ s.resolve inputs = some rest ∧ es = entry :: rest := by
  simp only [resolve, List.mapM_cons]
  cases s.entries[input.previousOutput]? with
  | none => simp
  | some entry =>
    cases inputs.mapM fun i => s.entries[i.previousOutput]? with
    | none => simp
    | some rest => simp [eq_comm]

theorem UtxoSet.resolve_length {s : UtxoSet} : ∀ {inputs : List TxIn} {es : List UtxoEntry},
    s.resolve inputs = some es → inputs.length = es.length := by
  intro inputs
  induction inputs with
  | nil => intro es h; cases h; rfl
  | cons input inputs ih =>
    intro es h
    obtain ⟨entry, rest, -, hrest, rfl⟩ := resolve_cons.mp h
    simp [ih hrest]

theorem verifyAuthorizations_iff (tx : Transaction) (height : UInt64) (utxos : UtxoSet) : ∀ {inputs : List TxIn}
    {es : List UtxoEntry}, utxos.resolve inputs = some es → ∀ idx : Nat,
      (verifyAuthorizations H tx (consensusScriptVerifier eng height) idx (inputs.zip es) = .ok () ↔
        (∀ i ∈ inputs, i.authorization ≠ []) ∧ verifyInputScripts H eng tx height utxos idx inputs = .ok ()) := by
  intro inputs
  induction inputs with
  | nil => intro es _ idx; simp [verifyAuthorizations, verifyInputScripts]
  | cons input inputs ih =>
    intro es hes idx
    obtain ⟨entry, rest, hentry, hrest, rfl⟩ := UtxoSet.resolve_cons.mp hes
    rw [List.zip_cons_cons, verifyAuthorizations_cons, consensusScriptVerifier_ok, ih hrest, verifyInputScripts_cons]
    simp only [hentry, Option.some.injEq, exists_eq_left', List.mem_cons, forall_eq_or_imp]
    tauto

/-- For every transaction but a coinbase, every set that holds its inputs and every height:
    the check at admission passes exactly when no authorization is empty and the check in a
    block passes. -/
theorem authorization_iff_scripts {tx : Transaction} (hcb : tx.isCoinbase = false) {utxos : UtxoSet} {es : List UtxoEntry}
    (hes : utxos.resolve tx.inputs = some es) (height : UInt64) :
    verifyTransactionAuthorization H tx es (consensusScriptVerifier eng height) = .ok () ↔
      (∀ i ∈ tx.inputs, i.authorization ≠ []) ∧ verifyTransactionScripts H eng tx height utxos = .ok () := by
  have hlen := UtxoSet.resolve_length hes
  rw [verifyTransactionAuthorization, if_neg (by simpa using hlen), verifyTransactionScripts, hcb]
  simp only [Bool.false_eq_true, if_false]
  exact verifyAuthorizations_iff tx height utxos hes 0

/-- An output at an outpoint, alone in a set. -/
def singleOutput (o : OutPoint) (lockingCondition : Bytes) : UtxoSet :=
  ⟨(∅ : Table OutPoint UtxoEntry).insert o ⟨⟨1000, lockingCondition⟩, 1, false⟩⟩

/-- No signature holds, and no bytecode compiles. -/
def closedEngines (H : Hasher) : Engines := nodeEngines H (fun _ _ _ => false) fun _ _ _ _ _ => .error .compilationFailed

/-- An input with `1` for an unlocking script. -/
def openSpend (o : OutPoint) : Transaction := ⟨transactionVersion1, [TxIn.new o [0x51]], [⟨900, [0x51]⟩], 0⟩

set_option maxRecDepth 10000 in
/-- An output locked by `1`. -/
theorem authorization_iff_scripts_open :
    let utxos := singleOutput ⟨Hash256.zero, 0⟩ [0x51]
    let tx := openSpend ⟨Hash256.zero, 0⟩
    verifyTransactionAuthorization Blake3.digest tx [⟨⟨1000, [0x51]⟩, 1, false⟩]
        (consensusScriptVerifier (closedEngines Blake3.digest) 5) = .ok () ↔
      (∀ i ∈ tx.inputs, i.authorization ≠ []) ∧
        verifyTransactionScripts Blake3.digest (closedEngines Blake3.digest) tx 5 utxos = .ok () :=
  authorization_iff_scripts (by decide) (by decide +kernel) 5

set_option maxRecDepth 10000 in
/-- A coinbase's scripts are run at admission only: here a set has a data carrier at the null
    outpoint. -/
theorem coinbase_scripts_unchecked :
    let utxos := singleOutput OutPoint.null [0x6a]
    let tx := Transaction.newCoinbase 1 [⟨900, [0x51]⟩]
    utxos.resolve tx.inputs = some [⟨⟨1000, [0x6a]⟩, 1, false⟩] ∧
      verifyTransactionAuthorization Blake3.digest tx [⟨⟨1000, [0x6a]⟩, 1, false⟩]
        (consensusScriptVerifier (closedEngines Blake3.digest) 5) ≠ .ok () ∧
      (∀ i ∈ tx.inputs, i.authorization ≠ []) ∧
      verifyTransactionScripts Blake3.digest (closedEngines Blake3.digest) tx 5 utxos = .ok () := by
  decide +kernel

/-! ## Locks that name a public key -/

/-- What a whole check has found of each input. -/
theorem verifyInputScripts_at {tx : Transaction} {height : UInt64} {utxos : UtxoSet} {input : TxIn} :
    ∀ {inputs : List TxIn} {idx k : Nat}, verifyInputScripts H eng tx height utxos idx inputs = .ok () →
      inputs[k]? = some input → ∃ utxo, utxos.entries[input.previousOutput]? = some utxo ∧
        (isContractLock utxo.output.lockingCondition = true ∨ eng.execute input.authorization utxo.output.lockingCondition
          (tx.computeSighash H (idx + k) utxo.output.lockingCondition) height = .ok true) := by
  intro inputs
  induction inputs with
  | nil => intro idx k _ hk; simp at hk
  | cons i inputs ih =>
    intro idx k h hk
    obtain ⟨utxo, hutxo, hpass, hrest⟩ := verifyInputScripts_cons.mp h
    cases k with
    | zero =>
      obtain rfl : i = input := by simpa using hk
      exact ⟨utxo, hutxo, hpass⟩
    | succ k =>
      have := ih hrest (by simpa using hk)
      rwa [Nat.add_right_comm, Nat.add_assoc] at this

variable {verifyStrict : VerifyStrict} {vm : Vm}

theorem isContractLock_publicKey (k : Hash256) :
    isContractLock (OutputLock.publicKey k.bytes).toLockingCondition = false := by
  have hsized : (OutputLock.publicKey k.bytes).Sized := k.size
  rw [isContractLock, OutputLock.fromLockingCondition_toLockingCondition hsized, Bool.and_false]

/-- The first byte pushes a 3, the second wants 67 bytes, and 38 are left. -/
theorem ScriptEngine.executeScript_publicKey {eng : ScriptEngine} {ctx : ScriptContext} (k : Hash256) (machine m' : Machine) :
    eng.executeScript H verifyStrict ctx (OutputLock.publicKey k.bytes).toLockingCondition machine ≠ .ok m' := by
  have hbytes : (OutputLock.publicKey k.bytes).toLockingCondition =
    0x53 :: 0x43 :: ([0x59, 0x01] ++ (u32le 0 ++ k.bytes)) := rfl
  have hthree : isPlain 0x53 = true ∧ OpCode.fromByte 0x53 = some (.opInt 3) := by decide
  have hpush : OpCode.isPushbytes 0x43 = true := by decide
  have hshort : ([0x59, 0x01] ++ (u32le 0 ++ k.bytes)).length < (0x43 : UInt8).toNat := by
    simp [k.size]
  intro h
  rw [executeScript_eq_run, hbytes] at h
  obtain ⟨-, stack, -, h⟩ := (run_opcode_eq_ok hthree.1 hthree.2).mp h
  rw [run_cons, round_pushbytes hpush, pushData, if_pos hshort] at h
  cases h

theorem execute_publicKey (k : Hash256) (proof : Bytes) (digest : Hash256) (height : UInt64) :
    (nodeEngines H verifyStrict vm).execute proof (OutputLock.publicKey k.bytes).toLockingCondition digest height ≠
      .ok true := by
  intro h
  simp only [nodeEngines, mapError_eq_ok, ScriptEngine.execute] at h
  obtain ⟨m, -, h⟩ := bind_eq_ok.mp h
  obtain ⟨m', hm', -⟩ := bind_eq_ok.mp h
  exact ScriptEngine.executeScript_publicKey k m m' hm'

/-- The transaction with another authorization for an input. -/
def Transaction.withAuthorization (tx : Transaction) (idx : Nat) (authorization : Bytes) : Transaction :=
  { tx with inputs := tx.inputs.modify idx fun i => { i with authorization } }

theorem Transaction.isCoinbase_withAuthorization (tx : Transaction) (idx : Nat) (authorization : Bytes) :
    (tx.withAuthorization idx authorization).isCoinbase = tx.isCoinbase := by
  obtain ⟨version, inputs, outputs, lockTime⟩ := tx
  rcases inputs with _ | ⟨i, _ | ⟨j, inputs⟩⟩
  · simp [withAuthorization]
  · cases idx <;> simp [withAuthorization, isCoinbase]
  · rcases idx with _ | _ | idx <;> simp [withAuthorization, isCoinbase]

/-- Nothing unlocks it for a transaction whose scripts are run. -/
theorem publicKey_refused {k : Hash256} {tx : Transaction} {utxos : UtxoSet} {idx : Nat} {input : TxIn}
    {entry : UtxoEntry} (hinput : tx.inputs[idx]? = some input) (hentry : utxos.entries[input.previousOutput]? = some entry)
    (hlock : entry.output.lockingCondition = (OutputLock.publicKey k.bytes).toLockingCondition)
    (hcb : tx.isCoinbase = false) (height : UInt64) (authorization : Bytes) :
    verifyTransactionScripts H (nodeEngines H verifyStrict vm) (tx.withAuthorization idx authorization) height utxos ≠
      .ok () := by
  intro h
  rw [verifyTransactionScripts, Transaction.isCoinbase_withAuthorization, hcb] at h
  have hat : (tx.withAuthorization idx authorization).inputs[idx]? = some { input with authorization } := by
    simp [Transaction.withAuthorization, hinput]
  obtain ⟨utxo, hutxo, hpass⟩ := verifyInputScripts_at h hat
  obtain rfl : entry = utxo := Option.some.inj (hentry.symm.trans hutxo)
  rw [hlock] at hpass
  rcases hpass with hcontract | hexecute
  · rw [isContractLock_publicKey] at hcontract
    cases hcontract
  · exact execute_publicKey k _ _ _ hexecute

/-- For every key, every transaction with an input that spends an output locked by it, every
    height and every set: some authorization of that input passes exactly when the
    transaction is a coinbase. -/
theorem publicKey_spendable_iff {k : Hash256} {tx : Transaction} {utxos : UtxoSet} {idx : Nat} {input : TxIn}
    {entry : UtxoEntry} (hinput : tx.inputs[idx]? = some input) (hentry : utxos.entries[input.previousOutput]? = some entry)
    (hlock : entry.output.lockingCondition = (OutputLock.publicKey k.bytes).toLockingCondition) (height : UInt64) :
    (∃ authorization, verifyTransactionScripts H (nodeEngines H verifyStrict vm) (tx.withAuthorization idx authorization)
      height utxos = .ok ()) ↔ tx.isCoinbase = true := by
  constructor
  · intro h
    obtain ⟨authorization, h⟩ := h
    by_cases hcb : tx.isCoinbase = true
    · exact hcb
    · exact absurd h (publicKey_refused hinput hentry hlock (by simpa using hcb) height authorization)
  · intro hcb
    refine ⟨[], ?_⟩
    rw [verifyTransactionScripts, Transaction.isCoinbase_withAuthorization, if_pos hcb]

theorem sampleKey_length : (List.replicate 32 (0x42 : UInt8)).length = 32 := List.length_replicate

/-- A public key: thirty-two bytes `0x42`. -/
def sampleKey : Hash256 := ⟨List.replicate 32 0x42, sampleKey_length⟩

/-- An output of it. -/
def keyOutput : UtxoSet := singleOutput ⟨Hash256.zero, 0⟩ (OutputLock.publicKey sampleKey.bytes).toLockingCondition

theorem keyOutput_entry : keyOutput.entries[(⟨Hash256.zero, 0⟩ : OutPoint)]? =
    some ⟨⟨1000, (OutputLock.publicKey sampleKey.bytes).toLockingCondition⟩, 1, false⟩ := Table.get_insert_self _ _ _

theorem publicKey_spendable_iff_sample :
    (∃ authorization, verifyTransactionScripts Blake3.digest (closedEngines Blake3.digest)
      ((openSpend ⟨Hash256.zero, 0⟩).withAuthorization 0 authorization) 5 keyOutput = .ok ()) ↔
        (openSpend ⟨Hash256.zero, 0⟩).isCoinbase = true := by
  have hinput : (openSpend ⟨Hash256.zero, 0⟩).inputs[0]? = some (TxIn.new ⟨Hash256.zero, 0⟩ [0x51]) := rfl
  exact publicKey_spendable_iff hinput keyOutput_entry rfl 5

/-- Where every signature holds this transaction still spends the output by no authorization. -/
theorem sample_key_never_spends :
    ¬∃ authorization, verifyTransactionScripts Blake3.digest
      (nodeEngines Blake3.digest (fun _ _ _ => true) fun _ _ _ _ _ => .error .compilationFailed)
      ((openSpend ⟨Hash256.zero, 0⟩).withAuthorization 0 authorization) 5 keyOutput = .ok () := by
  have hinput : (openSpend ⟨Hash256.zero, 0⟩).inputs[0]? = some (TxIn.new ⟨Hash256.zero, 0⟩ [0x51]) := rfl
  have hcb : (openSpend ⟨Hash256.zero, 0⟩).isCoinbase = false := by decide
  exact fun h => publicKey_refused hinput keyOutput_entry rfl hcb 5 _ h.choose_spec

end Scytale
