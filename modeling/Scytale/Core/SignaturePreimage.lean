/-
  Scytale.Core.SignaturePreimage — the digest an input's authorization is checked against
  (`Transaction::signature_preimage_digest`).

  Unlike the preimage of `compute_sighash` this one carries the counts of inputs and outputs
  and the length of every locking condition, so its bytes can be cut in one way only.
  - `signature_preimage_binds`: they determine the version, the outpoints, the index, the
    outputs and the lock time.
-/
import Scytale.Core.Authorization
import Scytale.Core.TxIdentity

namespace Scytale

open Lib

namespace Transaction

/-- The bytes that are hashed. -/
def preimageBytes (t : Transaction) (inputIndex : Nat) : Bytes :=
  u32le t.version ++
    (u32le (UInt32.ofNat t.inputs.length) ++ t.inputs.flatMap fun i => i.previousOutput.toFixedBytes) ++
    u32le (UInt32.ofNat inputIndex) ++
    (u32le (UInt32.ofNat t.outputs.length) ++ t.outputs.flatMap TxOut.canonicalBytes) ++ u64le t.lockTime

def signaturePreimage (t : Transaction) (inputIndex : Nat) : Except AuthorizationError Bytes :=
  if inputIndex ≥ t.inputs.length then .error (.invalidInputIndex inputIndex t.inputs.length)
  else match t.outputs.mapM TxOut.toCanonicalBytes with
    | .error e => .error (.preimageSerializationFailure e)
    | .ok outputs => .ok (u32le t.version ++
        (u32le (UInt32.ofNat t.inputs.length) ++ t.inputs.flatMap fun i => i.previousOutput.toFixedBytes) ++
        u32le (UInt32.ofNat inputIndex) ++
        (u32le (UInt32.ofNat t.outputs.length) ++ outputs.flatten) ++ u64le t.lockTime)

def signaturePreimageDigest (H : Hasher) (t : Transaction) (inputIndex : Nat) : Except AuthorizationError Hash256 :=
  (t.signaturePreimage inputIndex).map H

end Transaction

theorem TxOut.encodable_of_ok {o : TxOut} {bs : Bytes} (h : o.toCanonicalBytes = .ok bs) : o.encodable = true := by
  rw [toCanonicalBytes] at h
  cases hv : serializeVec o.lockingCondition with
  | error e =>
    rw [hv] at h
    cases h
  | ok v => exact decide_eq_true (serializeVec_ok hv)

theorem TxOut.toCanonicalBytes_of_encodable {o : TxOut} (h : o.encodable = true) :
    o.toCanonicalBytes = .ok o.canonicalBytes := by
  simp only [toCanonicalBytes, serializeVec_of_le (of_decide_eq_true h)]
  rfl

/-- There is a preimage of every input of a transaction whose outputs can be encoded, and of
    nothing else. -/
theorem Transaction.signaturePreimage_ok_iff {t : Transaction} {i : Nat} {bs : Bytes} :
    t.signaturePreimage i = .ok bs ↔
      i < t.inputs.length ∧ (∀ o ∈ t.outputs, o.encodable = true) ∧ bs = t.preimageBytes i := by
  have hwritten : (∀ o ∈ t.outputs, o.encodable = true) →
      t.outputs.mapM TxOut.toCanonicalBytes = .ok (t.outputs.map TxOut.canonicalBytes) := fun h =>
    mapM_ok_of_forall fun o ho => TxOut.toCanonicalBytes_of_encodable (h o ho)
  by_cases hi : i < t.inputs.length
  · rw [signaturePreimage, if_neg (by omega)]
    constructor
    · intro h
      split at h
      · cases h
      · rename_i outputs houts
        have hall : ∀ o ∈ t.outputs, o.encodable = true := fun o ho =>
          let ⟨_, hb⟩ := forall_of_mapM_ok houts o ho
          TxOut.encodable_of_ok hb
        rw [hwritten hall] at houts
        cases houts
        cases h
        exact ⟨hi, hall, by rw [preimageBytes, List.flatMap_def (f := TxOut.canonicalBytes)]⟩
    · rintro ⟨-, hall, rfl⟩
      rw [hwritten hall, preimageBytes, List.flatMap_def (f := TxOut.canonicalBytes)]
  · rw [signaturePreimage, if_pos (by omega)]
    constructor
    · intro h
      cases h
    · rintro ⟨h, -⟩
      exact absurd h hi

/-- Equal bytes are hashed only for the same input of transactions that agree in all but the
    authorizations and the sequence numbers of their inputs. -/
theorem signature_preimage_binds {a b : Transaction} {i j : Nat} {bs : Bytes} (sa : a.sized) (sb : b.sized)
    (ha : a.signaturePreimage i = .ok bs) (hb : b.signaturePreimage j = .ok bs) :
    a.version = b.version ∧ a.inputs.map TxIn.previousOutput = b.inputs.map TxIn.previousOutput ∧
      a.outputs = b.outputs ∧ a.lockTime = b.lockTime ∧ i = j := by
  obtain ⟨hi, houta, rfl⟩ := Transaction.signaturePreimage_ok_iff.mp ha
  obtain ⟨hj, houtb, h⟩ := Transaction.signaturePreimage_ok_iff.mp hb
  have houtpoint : SelfDelimiting (fun _ => True) OutPoint.toFixedBytes :=
    SelfDelimiting.fixed OutPoint.toFixedBytes_length OutPoint.toFixedBytes_inj
  -- cut from the left: each field tells where it ends
  simp only [Transaction.preimageBytes, List.append_assoc] at h
  obtain ⟨hversion, h⟩ := u32le_delimits trivial trivial h
  obtain ⟨hcount, h⟩ := count_delimits sa.1 sb.1 h
  have hmaps : ∀ t : Transaction, (t.inputs.flatMap fun i => i.previousOutput.toFixedBytes) =
      (t.inputs.map TxIn.previousOutput).flatMap OutPoint.toFixedBytes := fun t => by rw [List.flatMap_map]
  rw [hmaps, hmaps] at h
  obtain ⟨hinputs, h⟩ := houtpoint.list (by simpa using hcount) (fun _ _ => trivial) (fun _ _ => trivial) h
  obtain ⟨hindex, h⟩ := count_delimits (Nat.lt_trans hi sa.1) (Nat.lt_trans hj sb.1) h
  obtain ⟨hcount, h⟩ := count_delimits sa.2 sb.2 h
  obtain ⟨houtputs, h⟩ := txOut_delimits.list hcount houta houtb h
  exact ⟨hversion, hinputs, houtputs, u64le_inj h, hindex⟩

/-- The payment of one output with an authorization filled in. -/
def authorizedOutput : Transaction := { oneOutput.tx with inputs := [⟨⟨Hash256.zero, 0⟩, [1, 2, 3], 7⟩] }

/-- The authorization is not among what is hashed. -/
theorem signature_preimage_binds_authorized : oneOutput.tx ≠ authorizedOutput ∧
    oneOutput.tx.version = authorizedOutput.version ∧
      oneOutput.tx.inputs.map TxIn.previousOutput = authorizedOutput.inputs.map TxIn.previousOutput ∧
      oneOutput.tx.outputs = authorizedOutput.outputs ∧ oneOutput.tx.lockTime = authorizedOutput.lockTime ∧ 0 = 0 :=
  have hpreimage : oneOutput.tx.signaturePreimage 0 = .ok (oneOutput.tx.preimageBytes 0) := rfl
  ⟨by decide, signature_preimage_binds (by decide) (by decide) hpreimage rfl⟩

end Scytale
