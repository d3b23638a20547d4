/-
  Scytale.Contracts.Vault — the time-locked vault (contracts/vault/src/lib.rs).

  A vault is opened by its owner once it is unlocked, or rescued before by its emergency key
  in a transaction that burns a penalty. Every contract of a transaction runs by itself in one
  context, and the fee in it is that of the whole transaction.
  - `runContracts_input`: an accepted transaction has run the contract of each of its inputs.
  - `vault_penalty_each`: so its fee is at least the penalty of each vault it rescues, and it
    pays for them all at once: `two_vaults_one_penalty`.
-/
import Scytale.Contracts.Scy20
import Scytale.Core.Supply
import Scytale.Blake3

namespace Scytale

open Lib

structure VaultDatum where
  ownerPubkey : Address
  unlockTime : UInt64
  emergencyKey : Address
  penaltyFee : UInt64
  deriving DecidableEq

inductive VaultRedeemer where
  | normalWithdraw (signature : Signature)
  | emergencyRescue (penaltyAccepted : Bool) (signature : Signature)
  deriving DecidableEq

/-! ## bincode -/

namespace Fixint

def vaultDatumBytes (d : VaultDatum) : Bytes :=
  d.ownerPubkey.bytes ++ (u64le d.unlockTime ++ (d.emergencyKey.bytes ++ u64le d.penaltyFee))

def vaultDatum : Decoder VaultDatum := do
  let ownerPubkey ← Decoder.hash256
  let unlockTime ← Decoder.u64
  let emergencyKey ← Decoder.hash256
  let penaltyFee ← Decoder.u64
  return ⟨ownerPubkey, unlockTime, emergencyKey, penaltyFee⟩

/-- A byte string behind its length, which has to be 64. -/
def signatureBytes (s : Signature) : Bytes := u64le 64 ++ s.val

def signature : Decoder Signature := do
  let length ← Decoder.u64
  let bs ← readExact .unexpectedEof length.toNat
  if h : bs.length = 64 then return ⟨bs, h⟩ else throw .invalidEncoding

def vaultRedeemerBytes : VaultRedeemer → Bytes
  | .normalWithdraw s => u32le 0 ++ signatureBytes s
  | .emergencyRescue penaltyAccepted s => u32le 1 ++ (UtxoEntry.flagBytes penaltyAccepted ++ signatureBytes s)

def vaultRedeemer : Decoder VaultRedeemer := do
  let tag ← Decoder.u32
  if tag == 0 then do
    let s ← signature
    return .normalWithdraw s
  else if tag == 1 then do
    let penaltyAccepted ← Decoder.bool
    let s ← signature
    return .emergencyRescue penaltyAccepted s
  else throw .invalidEncoding

end Fixint

/-- `decode_payload`: bytes behind the last field are ignored. -/
def VaultDatum.decode (bs : Bytes) : Option VaultDatum := (Fixint.vaultDatum bs).toOption.map (·.1)

def VaultRedeemer.decode (bs : Bytes) : Option VaultRedeemer := (Fixint.vaultRedeemer bs).toOption.map (·.1)

/-! ## The contract -/

section
variable (verifyEd25519 : Address → Signature → Bytes → Bool)

/-- The redeemer against the vault and the context. -/
def VaultRedeemer.opens (datum : VaultDatum) (ctx : TxContext) : VaultRedeemer → Bool
  | .normalWithdraw signature =>
    decide (ctx.blockTime ≥ datum.unlockTime) && verifyEd25519 datum.ownerPubkey signature ctx.txHash.bytes
  | .emergencyRescue penaltyAccepted signature =>
    penaltyAccepted && decide (ctx.feeBurned ≥ datum.penaltyFee) &&
      verifyEd25519 datum.emergencyKey signature ctx.txHash.bytes

/-- `validate`: whether it answers `VALIDATION_SUCCESS`. -/
def validateVault (datum redeemer : Bytes) (ctx : TxContext) : Bool :=
  match VaultDatum.decode datum with
  | none => false
  | some datum =>
    match VaultRedeemer.decode redeemer with
    | none => false
    | some redeemer => redeemer.opens verifyEd25519 datum ctx

/-- The VM runs the vault's bytecode as its source reads. -/
def BehavesAsVault (vm : Vm) (vaultCode : Bytes) : Prop :=
  ∀ datum redeemer ctx gasLimit r, vm vaultCode datum redeemer ctx gasLimit = .ok r →
    r.isValid = validateVault verifyEd25519 datum redeemer ctx

end

/-! ## Accepted transactions -/

variable {H : Hasher} {vm : Vm} {verifyEd25519 : Address → Signature → Bytes → Bool} {utxos : UtxoSet}

theorem runContract_ok {ctx : TxContext} {gasLimit consumed consumed' : UInt64} {scriptHash datum : Bytes} {input : TxIn}
    (h : runContract H vm ctx gasLimit consumed scriptHash datum input = .ok consumed') :
    ∃ witness code redeemer r gas, EutxoWitness.fromTxIn input = some witness ∧ witness.scriptSource = some code ∧
      witness.redeemer = some redeemer ∧ vm code datum redeemer ctx gas = .ok r ∧ r.isValid = true := by
  unfold runContract at h
  cases hw : EutxoWitness.fromTxIn input with
  | none => rw [hw] at h; cases h
  | some witness =>
    cases hcode : witness.scriptSource with
    | none => simp only [hw, hcode] at h; cases h
    | some code =>
      cases hredeemer : witness.redeemer with
      | none => simp only [hw, hcode, hredeemer] at h; cases h
      | some redeemer =>
        simp only [hw, hcode, hredeemer] at h
        split at h
        · cases h
        · cases hrun : vm code datum redeemer ctx (UInt64.ofNat (gasLimit.toNat - consumed.toNat)) with
          | error e => rw [hrun] at h; cases h
          | ok r =>
            cases hvalid : r.isValid with
            | false => simp [hrun, hvalid] at h
            | true => exact ⟨witness, code, redeemer, r, _, rfl, hcode, hredeemer, hrun, hvalid⟩

/-- Each input's contract has run, with some gas left. -/
theorem runContracts_input {ctx : TxContext} {gasLimit : UInt64} {is : List TxIn} : ∀ {consumed consumed' : UInt64},
    runContracts H vm ctx utxos gasLimit consumed is = .ok consumed' → ∀ i ∈ is, ∀ (entry : UtxoEntry) (scriptHash datum : Bytes),
      utxos.entries[i.previousOutput]? = some entry →
      OutputLock.fromLockingCondition entry.output.lockingCondition = some (.script scriptHash datum) →
      ∃ used used', runContract H vm ctx gasLimit used scriptHash datum i = .ok used' := by
  induction is with
  | nil => intro consumed consumed' _ i hi; cases hi
  | cons input is ih =>
    intro consumed consumed' h i hi entry scriptHash datum hentry hlock
    rw [runContracts] at h
    rcases List.mem_cons.mp hi with rfl | hi
    · rw [hentry] at h
      simp only [hlock] at h
      cases hrun : runContract H vm ctx gasLimit consumed scriptHash datum i with
      | error e => rw [hrun] at h; cases h
      | ok used => exact ⟨consumed, used, hrun⟩
    · cases he : utxos.entries[input.previousOutput]? with
      | none => rw [he] at h; cases h
      | some e =>
        rw [he] at h
        simp only at h
        split at h
        · split at h
          · cases h
          · exact ih h i hi entry scriptHash datum hentry hlock
        · exact ih h i hi entry scriptHash datum hentry hlock

/-! ## Penalties -/

/-- The value the inputs find in a set. -/
def UtxoSet.valueIn (utxos : UtxoSet) (is : List TxIn) : Nat := utxos.spentWeight (fun o => o.value.toNat) is

theorem sumResolved_ok {is : List TxIn} : ∀ {total r : UInt64}, sumResolved utxos total is = .ok r →
    r.toNat = total.toNat + utxos.valueIn is := by
  induction is with
  | nil => intro total r h; cases h; rfl
  | cons i is ih =>
    intro total r h
    have hsum : utxos.valueIn (i :: is) =
      (utxos.entries[i.previousOutput]?).elim 0 (fun e => e.output.value.toNat) + utxos.valueIn is := rfl
    rw [sumResolved] at h
    cases he : utxos.entries[i.previousOutput]? with
    | none => rw [he] at h; cases h
    | some e =>
      rw [he] at h
      simp only at h
      split at h
      · cases h
      · rename_i t ht
        have h1 := checkedAdd_eq_some ht
        have h2 := ih h
        rw [hsum, he, Option.elim_some]
        omega

/-- The fee of the context is the transaction's, nothing where its outputs exceed its inputs. -/
theorem resolveContext_fee {tx : Transaction} {blockTime : UInt64} {ctx : TxContext}
    (h : resolveContext H tx blockTime utxos = .ok ctx) :
    ctx.feeBurned.toNat = utxos.valueIn tx.inputs - Transaction.outputSum tx.outputs := by
  unfold resolveContext at h
  split at h
  · cases h
  · rename_i totalIn hin
    split at h
    · cases h
    · rename_i totalOut hout
      cases h
      have h1 := sumResolved_ok hin
      have h2 := Transaction.totalOutputQuanta_ok hout
      have h0 : (0 : UInt64).toNat = 0 := rfl
      have hlt := totalIn.toNat_lt
      show (UInt64.ofNat (totalIn.toNat - totalOut.toNat)).toNat = _
      rw [UInt64.toNat_ofNat', Nat.mod_eq_of_lt (by omega)]
      omega

/-- The vault an input rescues: it spends an output with the hash of the vault's bytecode, and
    reveals that bytecode and an emergency redeemer. -/
def rescuedVault (H : Hasher) (vaultCode : Bytes) (utxos : UtxoSet) (input : TxIn) : Option VaultDatum :=
  match utxos.entries[input.previousOutput]?.bind fun e => OutputLock.fromLockingCondition e.output.lockingCondition,
      EutxoWitness.fromTxIn input with
  | some (.script scriptHash datum), some ⟨_, some redeemer, some code⟩ =>
    if scriptHash = (H vaultCode).bytes ∧ code = vaultCode then
      match VaultRedeemer.decode redeemer with
      | some (.emergencyRescue _ _) => VaultDatum.decode datum
      | _ => none
    else none
  | _, _ => none

/-- The vaults a transaction rescues, input after input. -/
def rescuedVaults (H : Hasher) (vaultCode : Bytes) (utxos : UtxoSet) (tx : Transaction) : List VaultDatum :=
  tx.inputs.filterMap (rescuedVault H vaultCode utxos)

theorem rescuedVault_eq_some {vaultCode : Bytes} {input : TxIn} {vault : VaultDatum}
    (h : rescuedVault H vaultCode utxos input = some vault) :
    ∃ entry scriptHash datum witness redeemer accepted signature, utxos.entries[input.previousOutput]? = some entry ∧
      OutputLock.fromLockingCondition entry.output.lockingCondition = some (.script scriptHash datum) ∧
      EutxoWitness.fromTxIn input = some witness ∧ witness.scriptSource = some vaultCode ∧
      witness.redeemer = some redeemer ∧ VaultRedeemer.decode redeemer = some (.emergencyRescue accepted signature) ∧
      VaultDatum.decode datum = some vault := by
  unfold rescuedVault at h
  split at h
  · rename_i scriptHash datum signed redeemer code hlock hwitness
    obtain ⟨entry, hentry, hlock⟩ := Option.bind_eq_some_iff.mp hlock
    split at h
    · rename_i hcode
      obtain ⟨-, rfl⟩ := hcode
      split at h
      · rename_i accepted signature hredeemer
        exact ⟨entry, scriptHash, datum, _, redeemer, accepted, signature, hentry, hlock, hwitness, rfl, rfl, hredeemer, h⟩
      · cases h
    · cases h
  · cases h

/-- A rescue is accepted only where the fee in the context covers the penalty. -/
theorem validateVault_rescue {datum redeemer : Bytes} {ctx : TxContext} {vault : VaultDatum} {accepted : Bool}
    {signature : Signature} (hdatum : VaultDatum.decode datum = some vault)
    (hredeemer : VaultRedeemer.decode redeemer = some (.emergencyRescue accepted signature))
    (h : validateVault verifyEd25519 datum redeemer ctx = true) : vault.penaltyFee ≤ ctx.feeBurned := by
  simp only [validateVault, hdatum, hredeemer, VaultRedeemer.opens, Bool.and_eq_true, decide_eq_true_eq] at h
  exact h.1.2

/-- For every accepted transaction that is no coinbase, whatever else it spends: its fee, the
    value of its inputs less that of its outputs, is at least the penalty of each vault it
    rescues. -/
theorem vault_penalty_each {vaultCode : Bytes} (hvm : BehavesAsVault verifyEd25519 vm vaultCode) {tx : Transaction}
    (hcb : tx.isCoinbase = false) {blockTime gasLimit gas : UInt64}
    (h : verifyTransactionEutxo H vm tx blockTime utxos gasLimit = .ok gas) :
    ∀ vault ∈ rescuedVaults H vaultCode utxos tx,
      vault.penaltyFee.toNat ≤ utxos.valueIn tx.inputs - Transaction.outputSum tx.outputs := by
  intro vault hvault
  obtain ⟨input, hinput, hrescued⟩ := List.mem_filterMap.mp hvault
  obtain ⟨entry, scriptHash, datum, witness, redeemer, accepted, signature, hentry, hlock, hwitness, hcode, hredeemer,
    hemergency, hdatum⟩ := rescuedVault_eq_some hrescued
  rw [verifyTransactionEutxo, hcb] at h
  cases hctx : resolveContext H tx blockTime utxos with
  | error e => simp [hctx] at h
  | ok ctx =>
    simp only [hctx, Bool.false_eq_true, if_false] at h
    have hfee := resolveContext_fee hctx
    obtain ⟨used, used', hrun⟩ := runContracts_input h input hinput entry scriptHash datum hentry hlock
    obtain ⟨witness', code, redeemer', r, gas', hwitness', hcode', hredeemer', hvalid, hok⟩ := runContract_ok hrun
    obtain rfl : witness = witness' := Option.some.inj (hwitness.symm.trans hwitness')
    obtain rfl : vaultCode = code := Option.some.inj (hcode.symm.trans hcode')
    obtain rfl : redeemer = redeemer' := Option.some.inj (hredeemer.symm.trans hredeemer')
    rw [hvm datum redeemer ctx gas' r hvalid] at hok
    have hcovers := UInt64.le_iff_toNat_le.mp (validateVault_rescue hdatum hemergency hok)
    omega

/-! ### Two vaults in one rescue -/

/-- The bytecode of the samples' vault. -/
def sampleVaultCode : Bytes := [0x00, 0x61, 0x73, 0x6d]

/-- A VM that runs it. -/
def vaultVm (verifyEd25519 : Address → Signature → Bytes → Bool) : Vm := fun code datum redeemer ctx _ =>
  if code = sampleVaultCode then .ok ⟨validateVault verifyEd25519 datum redeemer ctx, 0⟩ else .error .compilationFailed

theorem vaultVm_behaves (verifyEd25519 : Address → Signature → Bytes → Bool) :
    BehavesAsVault verifyEd25519 (vaultVm verifyEd25519) sampleVaultCode := by
  intro datum redeemer ctx gasLimit r h
  rw [vaultVm, if_pos rfl] at h
  cases h
  rfl

/-- A vault with a penalty of 500. -/
def sampleVault : VaultDatum := ⟨aliceKey, 1700000000, aliceKey, 500⟩

def sampleVaultOutput : UtxoEntry :=
  ⟨⟨1000, (OutputLock.script (Blake3.digest sampleVaultCode).bytes (Fixint.vaultDatumBytes sampleVault)).toLockingCondition⟩,
    1, false⟩

def twoVaults : UtxoSet :=
  ⟨((∅ : Table OutPoint UtxoEntry).insert ⟨Hash256.zero, 0⟩ sampleVaultOutput).insert ⟨Hash256.zero, 1⟩ sampleVaultOutput⟩

/-- A byte vector that is there, behind its length. -/
def someVec (bs : Bytes) : Bytes := 1 :: (u64le (UInt64.ofNat bs.length) ++ bs)

def rescueAuthorization (signature : Signature) : Bytes :=
  EutxoWitness.magicPrefix ++ (0 :: (someVec (Fixint.vaultRedeemerBytes (.emergencyRescue true signature)) ++
    someVec sampleVaultCode))

/-- Two vaults of 1000 each are spent into an output of 1500. -/
def rescueTx (signature : Signature) : Transaction :=
  ⟨transactionVersion1, [TxIn.new ⟨Hash256.zero, 0⟩ (rescueAuthorization signature),
    TxIn.new ⟨Hash256.zero, 1⟩ (rescueAuthorization signature)], [⟨1500, [0x51]⟩], 0⟩

/-- Its digest, signed by the emergency key. -/
def rescueSignature : Signature :=
  ⟨beBytes 64 0xadc628e2fc89ec21da6c38259720e183ca9dbe3bc62ccb918fe00b9af03d599628dc84e4eb76142dabe7859bf1663f4e19f4737263d7e481f03fd1f0d87e3100,
    by simp⟩

/-- Ed25519 on what the samples ask. -/
def knowsRescue : Address → Signature → Bytes → Bool := fun key signature message =>
  key == aliceKey && signature == rescueSignature &&
    message == ((rescueTx rescueSignature).computeHash Blake3.digest).bytes

/-- The rescue is accepted. -/
theorem rescue_accepted : verifyTransactionEutxo Blake3.digest (vaultVm knowsRescue) (rescueTx rescueSignature) 100
    twoVaults 5000000 = .ok 0 := by
  decide +kernel

theorem rescue_vaults : rescuedVaults Blake3.digest sampleVaultCode twoVaults (rescueTx rescueSignature) =
    [sampleVault, sampleVault] := by
  decide +kernel

theorem vault_penalty_each_rescue : sampleVault.penaltyFee.toNat ≤
    twoVaults.valueIn (rescueTx rescueSignature).inputs - Transaction.outputSum (rescueTx rescueSignature).outputs := by
  have hcb : (rescueTx rescueSignature).isCoinbase = false := by decide +kernel
  have hmem : sampleVault ∈ rescuedVaults Blake3.digest sampleVaultCode twoVaults (rescueTx rescueSignature) := by
    rw [rescue_vaults]
    exact List.mem_cons_self
  exact vault_penalty_each (vaultVm_behaves knowsRescue) hcb rescue_accepted sampleVault hmem

/-- Its fee is 500, and the two penalties are 1000. -/
theorem two_vaults_one_penalty :
    BehavesAsVault knowsRescue (vaultVm knowsRescue) sampleVaultCode ∧
      verifyTransactionEutxo Blake3.digest (vaultVm knowsRescue) (rescueTx rescueSignature) 100 twoVaults 5000000 = .ok 0 ∧
      ¬((rescuedVaults Blake3.digest sampleVaultCode twoVaults (rescueTx rescueSignature)).map
          fun vault => vault.penaltyFee.toNat).sum ≤
        twoVaults.valueIn (rescueTx rescueSignature).inputs -
          Transaction.outputSum (rescueTx rescueSignature).outputs := by
  refine ⟨vaultVm_behaves knowsRescue, rescue_accepted, ?_⟩
  rw [rescue_vaults]
  decide +kernel

end Scytale
