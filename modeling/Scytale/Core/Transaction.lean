/-
  Scytale.Core.Transaction — transactions, their canonical bytes and identifiers, and
  the stateless checks (crates/scytale-core/src/transaction.rs, codec.rs).

  The encoder refuses a byte vector above `maxVectorLength`; `toCanonicalBytes` is the
  encoder with that check, `canonicalBytes` the bytes it writes when the check passes
  (`toCanonicalBytes_of_encodable`). `txid` unwraps the encoder's result, so on a
  transaction that is not `encodable` the program panics; the callers that can meet one
  say so.
-/
import Scytale.Primitives

namespace Scytale

open Lib

def transactionVersion1 : UInt32 := 1

def dustThreshold : UInt64 := 500

def maxVectorLength : Nat := 16 * 1024 * 1024

structure TxIn where
  previousOutput : OutPoint
  authorization : Bytes
  sequence : UInt32
  deriving DecidableEq

/-- `TxIn::new`: the sequence is `u32::MAX`. -/
def TxIn.new (previousOutput : OutPoint) (authorization : Bytes) : TxIn := ⟨previousOutput, authorization, 0xffffffff⟩

structure Transaction where
  version : UInt32
  inputs : List TxIn
  outputs : List TxOut
  lockTime : UInt64
  deriving DecidableEq

inductive TransactionError where
  | invalidVersion (v : UInt32)
  | emptyInputs
  | emptyOutputs
  | zeroOutputValue
  | outputValueOverflow
  | duplicateInput (o : OutPoint)
  deriving DecidableEq

/-- `UnexpectedEof` always reports one byte needed and none available. -/
inductive SerializationError where
  | unexpectedEof
  | lengthExceedsLimit (length max : Nat)
  | trailingBytes (count : Nat)
  | invalidEncoding
  deriving DecidableEq

/-! ## Canonical bytes -/

/-- `Vec<u8>`: a four-byte length, then the bytes. -/
def vecBytes (v : Bytes) : Bytes := u32le (UInt32.ofNat v.length) ++ v

def serializeVec (v : Bytes) : Except SerializationError Bytes :=
  if v.length > maxVectorLength then .error (.lengthExceedsLimit v.length maxVectorLength) else .ok (vecBytes v)

namespace TxIn

def canonicalBytes (i : TxIn) : Bytes := i.previousOutput.toFixedBytes ++ vecBytes i.authorization ++ u32le i.sequence

def toCanonicalBytes (i : TxIn) : Except SerializationError Bytes := do
  let auth ← serializeVec i.authorization
  return i.previousOutput.toFixedBytes ++ auth ++ u32le i.sequence

def encodable (i : TxIn) : Bool := i.authorization.length ≤ maxVectorLength

end TxIn

namespace TxOut

def canonicalBytes (o : TxOut) : Bytes := u64le o.value ++ vecBytes o.lockingCondition

def toCanonicalBytes (o : TxOut) : Except SerializationError Bytes := do
  let lock ← serializeVec o.lockingCondition
  return u64le o.value ++ lock

def encodable (o : TxOut) : Bool := o.lockingCondition.length ≤ maxVectorLength

end TxOut

namespace Transaction

/-- The counts are written as `len() as u32`, the elements one after the other. -/
def canonicalBytes (t : Transaction) : Bytes :=
  u32le t.version ++ u32le (UInt32.ofNat t.inputs.length) ++ t.inputs.flatMap TxIn.canonicalBytes ++
    u32le (UInt32.ofNat t.outputs.length) ++ t.outputs.flatMap TxOut.canonicalBytes ++ u64le t.lockTime

def toCanonicalBytes (t : Transaction) : Except SerializationError Bytes := do
  let ins ← t.inputs.mapM TxIn.toCanonicalBytes
  let outs ← t.outputs.mapM TxOut.toCanonicalBytes
  return u32le t.version ++ u32le (UInt32.ofNat t.inputs.length) ++ ins.flatten ++
    u32le (UInt32.ofNat t.outputs.length) ++ outs.flatten ++ u64le t.lockTime

/-- No byte vector of the transaction is above the encoder's limit. -/
def encodable (t : Transaction) : Bool := t.inputs.all TxIn.encodable && t.outputs.all TxOut.encodable

end Transaction

theorem serializeVec_of_le {v : Bytes} (h : v.length ≤ maxVectorLength) : serializeVec v = .ok (vecBytes v) := by
  rw [serializeVec, if_neg (by omega)]

theorem serializeVec_ok {v bs : Bytes} (h : serializeVec v = .ok bs) : v.length ≤ maxVectorLength := by
  unfold serializeVec at h
  split at h
  · cases h
  · omega

theorem mapM_ok_of_forall {α β ε : Type} {f : α → Except ε β} {g : α → β} :
    ∀ {l : List α}, (∀ a ∈ l, f a = .ok (g a)) → l.mapM f = .ok (l.map g) := by
  intro l
  induction l with
  | nil => intro _; rfl
  | cons a l ih =>
    intro h
    rw [List.mapM_cons, h a List.mem_cons_self, ih fun b hb => h b (List.mem_cons_of_mem _ hb)]
    rfl

theorem forall_of_mapM_ok {α β ε : Type} {f : α → Except ε β} :
    ∀ {l : List α} {bs : List β}, l.mapM f = .ok bs → ∀ a ∈ l, ∃ b, f a = .ok b := by
  intro l
  induction l with
  | nil => intro _ _ a ha; cases ha
  | cons x l ih =>
    intro bs h a ha
    rw [List.mapM_cons] at h
    cases hx : f x with
    | error e => rw [hx] at h; cases h
    | ok y =>
      rw [hx] at h
      cases hl : l.mapM f with
      | error e => rw [hl] at h; cases h
      | ok ys =>
        rcases List.mem_cons.mp ha with rfl | ha
        · exact ⟨y, hx⟩
        · exact ih hl a ha

theorem Transaction.toCanonicalBytes_of_encodable {t : Transaction} (h : t.encodable = true) :
    t.toCanonicalBytes = .ok t.canonicalBytes := by
  simp only [encodable, Bool.and_eq_true, List.all_eq_true] at h
  have hin : t.inputs.mapM TxIn.toCanonicalBytes = .ok (t.inputs.map TxIn.canonicalBytes) :=
    mapM_ok_of_forall fun i hi => by
      have := serializeVec_of_le (of_decide_eq_true (h.1 i hi))
      simp only [TxIn.toCanonicalBytes, this]
      rfl
  have hout : t.outputs.mapM TxOut.toCanonicalBytes = .ok (t.outputs.map TxOut.canonicalBytes) :=
    mapM_ok_of_forall fun o ho => by
      have := serializeVec_of_le (of_decide_eq_true (h.2 o ho))
      simp only [TxOut.toCanonicalBytes, this]
      rfl
  rw [toCanonicalBytes, hin, hout]
  simp only [canonicalBytes, List.flatMap_def]
  rfl

/-- The encoder succeeds exactly on encodable transactions. -/
theorem Transaction.encodable_of_toCanonicalBytes {t : Transaction} {bs : Bytes} (h : t.toCanonicalBytes = .ok bs) :
    t.encodable = true := by
  unfold toCanonicalBytes at h
  cases hin : t.inputs.mapM TxIn.toCanonicalBytes with
  | error e => rw [hin] at h; cases h
  | ok ins =>
    cases hout : t.outputs.mapM TxOut.toCanonicalBytes with
    | error e => rw [hin, hout] at h; cases h
    | ok outs =>
      simp only [encodable, Bool.and_eq_true, List.all_eq_true]
      refine ⟨fun i hi => ?_, fun o ho => ?_⟩
      · obtain ⟨b, hb⟩ := forall_of_mapM_ok hin i hi
        unfold TxIn.toCanonicalBytes at hb
        cases hv : serializeVec i.authorization with
        | error e => rw [hv] at hb; cases hb
        | ok v => exact decide_eq_true (serializeVec_ok hv)
      · obtain ⟨b, hb⟩ := forall_of_mapM_ok hout o ho
        unfold TxOut.toCanonicalBytes at hb
        cases hv : serializeVec o.lockingCondition with
        | error e => rw [hv] at hb; cases hb
        | ok v => exact decide_eq_true (serializeVec_ok hv)

namespace Transaction

variable (H : Hasher)

/-- The digest of the canonical bytes. -/
def txid (t : Transaction) : Hash256 := H t.canonicalBytes

/-! ## Checks -/

/-- Exactly one input, and it refers to the null outpoint. -/
def isCoinbase (t : Transaction) : Bool :=
  match t.inputs with
  | [i] => i.previousOutput.isNull
  | _ => false

/-- `new_coinbase`: the height in the null input's authorization. -/
def newCoinbase (height : UInt64) (outputs : List TxOut) : Transaction :=
  ⟨transactionVersion1, [TxIn.new OutPoint.null (u64le height)], outputs, 0⟩

/-- The loop of `total_output_quanta`: a checked sum. -/
def sumOutputs : UInt64 → List TxOut → Except TransactionError UInt64
  | total, [] => .ok total
  | total, o :: os =>
    match checkedAdd total o.value with
    | some t => sumOutputs t os
    | none => .error .outputValueOverflow

def totalOutputQuanta (t : Transaction) : Except TransactionError UInt64 := sumOutputs 0 t.outputs

/-- Standard outputs carry at least the dust threshold; OP_RETURN outputs may carry
    nothing. -/
def dustCheck (t : Transaction) : Except TransactionError Unit :=
  if t.outputs.any (fun o => !o.isOpReturn && o.value < dustThreshold) then .error .zeroOutputValue else .ok ()

/-- The loop over `seen`: the first input already seen is reported. -/
def duplicateInput : List OutPoint → List TxIn → Except TransactionError Unit
  | _, [] => .ok ()
  | seen, i :: is =>
    if i.previousOutput ∈ seen then .error (.duplicateInput i.previousOutput)
    else duplicateInput (i.previousOutput :: seen) is

def validateStateless (t : Transaction) : Except TransactionError Unit :=
  if t.version ≠ transactionVersion1 then .error (.invalidVersion t.version)
  else if t.inputs.isEmpty then .error .emptyInputs
  else if t.outputs.isEmpty then .error .emptyOutputs
  else do
    dustCheck t
    let _ ← totalOutputQuanta t
    duplicateInput [] t.inputs

/-- Written out and read back, the transaction is itself: the decoder refuses a count or a
    byte vector above the limit. -/
def decodable (t : Transaction) : Bool :=
  t.encodable && decide (t.inputs.length ≤ maxVectorLength) && decide (t.outputs.length ≤ maxVectorLength)

/-! ## What the checks establish -/

def outputSum (os : List TxOut) : Nat := (os.map fun o => o.value.toNat).sum

theorem sumOutputs_ok {os : List TxOut} : ∀ {total r : UInt64}, sumOutputs total os = .ok r →
    r.toNat = total.toNat + outputSum os := by
  induction os with
  | nil => intro total r h; cases h; simp [outputSum]
  | cons o os ih =>
    intro total r h
    unfold sumOutputs at h
    split at h
    · rename_i t ht
      rw [ih h, checkedAdd_eq_some ht, outputSum, outputSum, List.map_cons, List.sum_cons]
      omega
    · cases h

theorem totalOutputQuanta_ok {t : Transaction} {r : UInt64} (h : t.totalOutputQuanta = .ok r) :
    r.toNat = outputSum t.outputs := by
  rw [sumOutputs_ok h]
  simp

theorem duplicateInput_ok {is : List TxIn} : ∀ {seen : List OutPoint}, duplicateInput seen is = .ok () →
    (is.map TxIn.previousOutput).Nodup ∧ ∀ i ∈ is, i.previousOutput ∉ seen := by
  induction is with
  | nil => intro seen _; exact ⟨List.nodup_nil, fun i hi => by cases hi⟩
  | cons i is ih =>
    intro seen h
    unfold duplicateInput at h
    split at h
    · cases h
    · rename_i hn
      obtain ⟨h1, h2⟩ := ih h
      refine ⟨List.nodup_cons.mpr ⟨fun hm => ?_, h1⟩, fun j hj => ?_⟩
      · obtain ⟨j, hj, he⟩ := List.mem_map.mp hm
        exact h2 j hj (he ▸ List.mem_cons_self)
      · rcases List.mem_cons.mp hj with rfl | hj
        · exact hn
        · exact fun hm => h2 j hj (List.mem_cons_of_mem _ hm)

/-- A transaction that passes spends distinct outpoints, at least one. -/
theorem validateStateless_ok {t : Transaction} (h : t.validateStateless = .ok ()) :
    t.inputs ≠ [] ∧ (t.inputs.map TxIn.previousOutput).Nodup := by
  unfold validateStateless at h
  split at h
  · cases h
  · split at h
    · cases h
    · rename_i hin
      split at h
      · cases h
      · refine ⟨by simpa using hin, ?_⟩
        cases hd : dustCheck t with
        | error e => rw [hd] at h; cases h
        | ok u =>
          cases ht : totalOutputQuanta t with
          | error e => rw [hd, ht] at h; cases h
          | ok v =>
            rw [hd, ht] at h
            have hnodup : (t.inputs.map TxIn.previousOutput).Nodup ∧ ∀ i ∈ t.inputs, i.previousOutput ∉ [] :=
              duplicateInput_ok h
            exact hnodup.1

end Transaction

/-! ## Locks -/

/-- What a locking condition can hold besides a script of the stack machine. -/
inductive OutputLock where
  | publicKey (pk : Bytes)
  | script (scriptHash datum : Bytes)
  deriving DecidableEq

namespace OutputLock

/-- `MAGIC_PREFIX`, "SCY" and a version byte. -/
def magicPrefix : Bytes := [0x53, 0x43, 0x59, 0x01]

/-- `bincode::deserialize`: a four-byte variant tag, then the fields, a vector behind its
    eight-byte length; bytes after the last field are ignored. -/
def deserialize (bs : Bytes) : Option OutputLock :=
  if bs.length < 36 then none
  else if leNat (bs.take 4) = 0 then some (.publicKey ((bs.drop 4).take 32))
  else if leNat (bs.take 4) = 1 ∧ 44 ≤ bs.length ∧ leNat ((bs.drop 36).take 8) ≤ bs.length - 44 then
    some (.script ((bs.drop 4).take 32) ((bs.drop 44).take (leNat ((bs.drop 36).take 8))))
  else none

def fromLockingCondition (bs : Bytes) : Option OutputLock :=
  if bs.take 4 = magicPrefix then deserialize (bs.drop 4) else deserialize bs

/-- `bincode::serialize`. -/
def serialize : OutputLock → Bytes
  | publicKey pk => u32le 0 ++ pk
  | script scriptHash datum => u32le 1 ++ (scriptHash ++ (u64le (UInt64.ofNat datum.length) ++ datum))

def toLockingCondition (lock : OutputLock) : Bytes := magicPrefix ++ lock.serialize

/-- Keys and hashes are arrays of 32 bytes, and a vector's length is a `usize`. -/
def Sized : OutputLock → Prop
  | publicKey pk => pk.length = 32
  | script scriptHash datum => scriptHash.length = 32 ∧ datum.length < 2 ^ 64

theorem deserialize_serialize {lock : OutputLock} (h : lock.Sized) : deserialize lock.serialize = some lock := by
  cases lock with
  | publicKey pk =>
    have hpk : pk.length = 32 := h
    have htag : leNat (u32le 0) = 0 := by decide
    simp [serialize, deserialize, hpk, htag]
  | script scriptHash datum =>
    obtain ⟨hhash, hdatum⟩ := h
    have htag : leNat (u32le 1) = 1 := by decide
    have hlen : leNat (u64le (UInt64.ofNat datum.length)) = datum.length := by
      rw [u64le, leNat_leBytes, UInt64.toNat_ofNat', Nat.mod_eq_of_lt hdatum]
      exact Nat.mod_eq_of_lt hdatum
    have hbehind : (u32le 1 ++ (scriptHash ++ (u64le (UInt64.ofNat datum.length) ++ datum))).drop 36 =
        u64le (UInt64.ofNat datum.length) ++ datum := by
      rw [← List.append_assoc]
      exact List.drop_left' (by simp [hhash])
    have hsize : (u32le 1 ++ (scriptHash ++ (u64le (UInt64.ofNat datum.length) ++ datum))).length = 44 + datum.length := by
      simp [hhash]
      omega
    have hdata : (u32le 1 ++ (scriptHash ++ (u64le (UInt64.ofNat datum.length) ++ datum))).drop 44 = datum := by
      rw [← List.drop_drop (i := 8) (j := 36), hbehind]
      exact List.drop_left' (u64le_length _)
    rw [serialize, deserialize, hsize, hbehind, hdata, List.take_left' (u64le_length _), hlen, List.take_left' (u32le_length _),
      htag, List.drop_left' (u32le_length _), List.take_left' hhash, if_neg (by omega), if_neg (by decide),
      if_pos (by omega), List.take_length]

/-- A lock is read back from its locking condition. -/
theorem fromLockingCondition_toLockingCondition {lock : OutputLock} (h : lock.Sized) :
    fromLockingCondition lock.toLockingCondition = some lock := by
  have htake : (magicPrefix ++ lock.serialize).take 4 = magicPrefix := List.take_left' rfl
  have hdrop : (magicPrefix ++ lock.serialize).drop 4 = lock.serialize := List.drop_left' rfl
  rw [fromLockingCondition, toLockingCondition, if_pos htake, hdrop]
  exact deserialize_serialize h

end OutputLock

end Scytale
