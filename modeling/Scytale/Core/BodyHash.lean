/-
  Scytale.Core.BodyHash — what the transaction hash of a contract's context commits to
  (`Transaction::compute_hash`, crates/scytale-core/src/transaction.rs).

  Version and lock time come first, then the inputs behind their count and the outputs behind
  theirs, both counts cut to 32 bits. An output is its value and its locking condition without
  its length, so where one output ends and the next begins is not fixed by the bytes.
  - `body_binds_iff_shape`: for two shapes (the number of inputs and the lengths of the locking
    conditions) the hashed bytes determine the body of every two transactions of these shapes
    exactly when the shapes are equal, or their sizes or their counts tell them apart.
  - `contract_hash_shared`: two transactions that pay differently have one context hash.
-/
import Scytale.Core.Sighash
import Scytale.Core.VmAdapter

namespace Scytale

open Lib

namespace Transaction

/-- The bytes `compute_hash` hashes. -/
def bodyPreimage (t : Transaction) : Bytes :=
  txBodyTag ++ u32le t.version ++ u64le t.lockTime ++ u32le (UInt32.ofNat t.inputs.length) ++
    (t.inputs.flatMap fun i => i.previousOutput.toFixedBytes) ++ u32le (UInt32.ofNat t.outputs.length) ++
    t.outputs.flatMap TxOut.sighashBytes

theorem computeHash_eq (H : Hasher) (t : Transaction) : t.computeHash H = H t.bodyPreimage := rfl

/-- The same version, lock time, input outpoints and outputs. -/
structure SameBody (a b : Transaction) : Prop where
  version : a.version = b.version
  lockTime : a.lockTime = b.lockTime
  outpoints : a.inputs.map TxIn.previousOutput = b.inputs.map TxIn.previousOutput
  outputs : a.outputs = b.outputs

theorem SameBody.symm {a b : Transaction} (h : SameBody a b) : SameBody b a :=
  ⟨h.version.symm, h.lockTime.symm, h.outpoints.symm, h.outputs.symm⟩

end Transaction

/-- The number of inputs and the lengths of the locking conditions. -/
structure BodyShape where
  inputs : Nat
  locks : List Nat
  deriving DecidableEq

namespace BodyShape

def outputBytes (σ : BodyShape) : Nat := (σ.locks.map (8 + ·)).sum

/-- The number of bytes but for the fields every body has. -/
def size (σ : BodyShape) : Nat := 36 * σ.inputs + σ.outputBytes

end BodyShape

def Transaction.bodyShape (t : Transaction) : BodyShape :=
  ⟨t.inputs.length, t.outputs.map fun o => o.lockingCondition.length⟩

namespace Transaction

theorem bodyPreimage_length (t : Transaction) : t.bodyPreimage.length = 38 + t.bodyShape.size := by
  simp only [bodyPreimage, List.length_append, flatMap_outpoints_length, flatMap_outputs_length, u32le_length, u64le_length,
    bodyShape, BodyShape.size, BodyShape.outputBytes, txBodyTag, List.length_cons, List.length_nil]
  omega

/-- The fields of fixed place: version, lock time, the number of inputs. -/
theorem head_of_bodyPreimage {a b : Transaction} (h : a.bodyPreimage = b.bodyPreimage) :
    a.version = b.version ∧ a.lockTime = b.lockTime ∧ UInt32.ofNat a.inputs.length = UInt32.ofNat b.inputs.length ∧
      (a.inputs.flatMap fun i => i.previousOutput.toFixedBytes) ++
          (u32le (UInt32.ofNat a.outputs.length) ++ a.outputs.flatMap TxOut.sighashBytes) =
        (b.inputs.flatMap fun i => i.previousOutput.toFixedBytes) ++
          (u32le (UInt32.ofNat b.outputs.length) ++ b.outputs.flatMap TxOut.sighashBytes) := by
  simp only [bodyPreimage, List.append_assoc] at h
  obtain ⟨-, h⟩ := List.append_inj h rfl
  obtain ⟨hv, h⟩ := List.append_inj h (by simp)
  obtain ⟨hl, h⟩ := List.append_inj h (by simp)
  obtain ⟨hn, h⟩ := List.append_inj h (by simp)
  exact ⟨u32le_inj hv, u64le_inj hl, u32le_inj hn, h⟩

/-- Of as many inputs the outpoints and the number of outputs are fixed too. -/
theorem inputs_of_bodyPreimage {a b : Transaction} (hn : a.inputs.length = b.inputs.length)
    (h : a.bodyPreimage = b.bodyPreimage) :
    a.inputs.map TxIn.previousOutput = b.inputs.map TxIn.previousOutput ∧
      UInt32.ofNat a.outputs.length = UInt32.ofNat b.outputs.length ∧
      a.outputs.flatMap TxOut.sighashBytes = b.outputs.flatMap TxOut.sighashBytes := by
  obtain ⟨-, -, -, h⟩ := head_of_bodyPreimage h
  obtain ⟨hin, h⟩ := List.append_inj h (by rw [flatMap_outpoints_length, flatMap_outpoints_length, hn])
  obtain ⟨hc, hout⟩ := List.append_inj h (by simp)
  exact ⟨outpoints_cut hn hin, u32le_inj hc, hout⟩

theorem sameBody_of_shape {a b : Transaction} (hs : a.bodyShape = b.bodyShape) (h : a.bodyPreimage = b.bodyPreimage) :
    SameBody a b := by
  obtain ⟨hn, hl⟩ := BodyShape.mk.inj hs
  obtain ⟨hv, ht, -, -⟩ := head_of_bodyPreimage h
  obtain ⟨hin, -, hout⟩ := inputs_of_bodyPreimage hn h
  exact ⟨hv, ht, hin, outputs_cut hl hout⟩

end Transaction

/-! ## Every string of the right length is read as a body -/

theorem exists_u32le (bs : Bytes) (h : bs.length = 4) : ∃ x, u32le x = bs := by
  refine ⟨UInt32.ofNat (leNat bs), ?_⟩
  have hlt : leNat bs < 2 ^ 32 := by
    have := byteVal_lt bs.reverse
    rw [List.length_reverse, h] at this
    exact this
  rw [u32le, UInt32.toNat_ofNat', Nat.mod_eq_of_lt hlt, ← h, leBytes_leNat]

theorem exists_u64le (bs : Bytes) (h : bs.length = 8) : ∃ x, u64le x = bs := by
  refine ⟨UInt64.ofNat (leNat bs), ?_⟩
  have hlt : leNat bs < 2 ^ 64 := by
    have := byteVal_lt bs.reverse
    rw [List.length_reverse, h] at this
    exact this
  rw [u64le, UInt64.toNat_ofNat', Nat.mod_eq_of_lt hlt, ← h, leBytes_leNat]

theorem exists_inputs : ∀ (n : Nat) (bs : Bytes), bs.length = 36 * n →
    ∃ is : List TxIn, is.length = n ∧ (is.flatMap fun i => i.previousOutput.toFixedBytes) = bs := by
  intro n
  induction n with
  | zero => intro bs h; exact ⟨[], rfl, (List.eq_nil_of_length_eq_zero (by omega)).symm⟩
  | succ n ih =>
    intro bs h
    obtain ⟨is, hn, his⟩ := ih (bs.drop 36) (by rw [List.length_drop]; omega)
    obtain ⟨index, hindex⟩ := exists_u32le ((bs.drop 32).take 4) (by rw [List.length_take, List.length_drop]; omega)
    have htx : (bs.take 32).length = 32 := by rw [List.length_take]; omega
    refine ⟨TxIn.new ⟨⟨bs.take 32, htx⟩, index⟩ [] :: is, by rw [List.length_cons, hn], ?_⟩
    have hcut : bs.drop 36 = (bs.drop 32).drop 4 := by rw [List.drop_drop]
    rw [List.flatMap_cons, his]
    show bs.take 32 ++ u32le index ++ bs.drop 36 = bs
    rw [hindex, hcut, List.append_assoc, List.take_append_drop, List.take_append_drop]

theorem exists_outputs : ∀ (ls : List Nat) (bs : Bytes), bs.length = (ls.map (8 + ·)).sum →
    ∃ os : List TxOut, (os.map fun o => o.lockingCondition.length) = ls ∧ os.flatMap TxOut.sighashBytes = bs := by
  intro ls
  induction ls with
  | nil => intro bs h; exact ⟨[], rfl, (List.eq_nil_of_length_eq_zero h).symm⟩
  | cons l ls ih =>
    intro bs h
    rw [List.map_cons, List.sum_cons] at h
    obtain ⟨os, hl, hos⟩ := ih (bs.drop (8 + l)) (by rw [List.length_drop]; omega)
    obtain ⟨value, hvalue⟩ := exists_u64le (bs.take 8) (by rw [List.length_take]; omega)
    have hlen : ((bs.drop 8).take l).length = l := by rw [List.length_take, List.length_drop]; omega
    refine ⟨⟨value, (bs.drop 8).take l⟩ :: os, by rw [List.map_cons, hl, hlen], ?_⟩
    have hcut : bs.drop (8 + l) = (bs.drop 8).drop l := by rw [List.drop_drop]
    rw [List.flatMap_cons, hos]
    show u64le value ++ (bs.drop 8).take l ++ bs.drop (8 + l) = bs
    rw [hvalue, hcut, List.append_assoc, List.take_append_drop, List.take_append_drop]

theorem exists_body (σ : BodyShape) (ins outs : Bytes) (hin : ins.length = 36 * σ.inputs)
    (hout : outs.length = σ.outputBytes) : ∃ t : Transaction, t.bodyShape = σ ∧
      t.bodyPreimage = txBodyTag ++ u32le transactionVersion1 ++ u64le 0 ++ u32le (UInt32.ofNat σ.inputs) ++ ins ++
        u32le (UInt32.ofNat σ.locks.length) ++ outs := by
  obtain ⟨is, hn, rfl⟩ := exists_inputs σ.inputs ins hin
  obtain ⟨os, hl, rfl⟩ := exists_outputs σ.locks outs hout
  refine ⟨⟨transactionVersion1, is, os, 0⟩, ?_, ?_⟩
  · rw [Transaction.bodyShape, hn, hl]
  · have hk : os.length = σ.locks.length := by rw [← hl, List.length_map]
    rw [Transaction.bodyPreimage, hn, hk]

/-! ## Two shapes -/

/-- Two transactions of these shapes that hash alike and are not the same. -/
def Collide (σ τ : BodyShape) : Prop :=
  ∃ a b : Transaction, a.bodyShape = σ ∧ b.bodyShape = τ ∧ a.bodyPreimage = b.bodyPreimage ∧ ¬Transaction.SameBody a b

theorem Collide.symm {σ τ : BodyShape} (h : Collide σ τ) : Collide τ σ := by
  obtain ⟨a, b, ha, hb, he, hne⟩ := h
  exact ⟨b, a, hb, ha, he.symm, fun hs => hne hs.symm⟩

/-- As many inputs and outputs, as many bytes, but cut elsewhere: zeros throughout. -/
theorem collide_of_cut {σ τ : BodyShape} (hn : σ.inputs = τ.inputs) (hc : UInt32.ofNat σ.locks.length = UInt32.ofNat τ.locks.length)
    (hs : σ.size = τ.size) (hne : σ ≠ τ) : Collide σ τ := by
  have hout : σ.outputBytes = τ.outputBytes := by
    simp only [BodyShape.size, hn] at hs
    omega
  obtain ⟨a, ha, hpa⟩ := exists_body σ (List.replicate (36 * σ.inputs) 0) (List.replicate σ.outputBytes 0)
    (by simp) (by simp)
  obtain ⟨b, hb, hpb⟩ := exists_body τ (List.replicate (36 * τ.inputs) 0) (List.replicate τ.outputBytes 0)
    (by simp) (by simp)
  refine ⟨a, b, ha, hb, by rw [hpa, hpb, hn, hc, hout], fun hsame => hne ?_⟩
  have hin := congrArg List.length hsame.outpoints
  rw [List.length_map, List.length_map] at hin
  rw [← ha, ← hb, Transaction.bodyShape, Transaction.bodyShape, hin, hsame.outputs]

/-- More inputs on one side, with counts that are cut alike: the other side's outputs hold the
    rest of the outpoints. -/
theorem collide_of_lt {σ τ : BodyShape} (hlt : σ.inputs < τ.inputs) (hc : UInt32.ofNat σ.inputs = UInt32.ofNat τ.inputs)
    (hs : σ.size = τ.size) : Collide σ τ := by
  simp only [BodyShape.size] at hs
  -- the count of the one side's outputs stands among the other's outpoints, and the other way round
  let between : Bytes := List.replicate (36 * (τ.inputs - σ.inputs) - 4) 0
  obtain ⟨a, ha, hpa⟩ := exists_body σ (List.replicate (36 * σ.inputs) 0)
    (between ++ u32le (UInt32.ofNat τ.locks.length) ++ List.replicate τ.outputBytes 0) (by simp)
    (by simp [between]; omega)
  obtain ⟨b, hb, hpb⟩ := exists_body τ
    (List.replicate (36 * σ.inputs) 0 ++ u32le (UInt32.ofNat σ.locks.length) ++ between)
    (List.replicate τ.outputBytes 0) (by simp [between]; omega) (by simp)
  refine ⟨a, b, ha, hb, by rw [hpa, hpb, hc]; simp only [List.append_assoc], fun hsame => ?_⟩
  have hin := congrArg List.length hsame.outpoints
  rw [List.length_map, List.length_map] at hin
  have hna : a.inputs.length = σ.inputs := by rw [← ha]; rfl
  have hnb : b.inputs.length = τ.inputs := by rw [← hb]; rfl
  omega

/-- The hashed bytes determine version, lock time, outpoints and outputs of all transactions of
    two shapes exactly when the shapes are equal, or the number of bytes, the number of inputs,
    or of as many inputs the number of outputs (both to 32 bits) tells them apart. -/
theorem body_binds_iff_shape (σ τ : BodyShape) :
    (∀ a b : Transaction, a.bodyShape = σ → b.bodyShape = τ → a.bodyPreimage = b.bodyPreimage →
        Transaction.SameBody a b) ↔
      σ = τ ∨ σ.size ≠ τ.size ∨ UInt32.ofNat σ.inputs ≠ UInt32.ofNat τ.inputs ∨
        (σ.inputs = τ.inputs ∧ UInt32.ofNat σ.locks.length ≠ UInt32.ofNat τ.locks.length) := by
  constructor
  · intro h
    have hno : ¬Collide σ τ := fun ⟨a, b, ha, hb, he, hne⟩ => hne (h a b ha hb he)
    by_contra hc
    simp only [not_or, not_and, not_not] at hc
    obtain ⟨hne, hs, hn, hk⟩ := hc
    rcases Nat.lt_trichotomy σ.inputs τ.inputs with hlt | heq | hgt
    · exact hno (collide_of_lt hlt hn hs)
    · exact hno (collide_of_cut heq (hk heq) hs hne)
    · exact hno (collide_of_lt hgt hn.symm hs.symm).symm
  · intro hc a b ha hb he
    have hlen := congrArg List.length he
    rw [a.bodyPreimage_length, b.bodyPreimage_length, ha, hb] at hlen
    have hna : a.inputs.length = σ.inputs := by rw [← ha]; rfl
    have hnb : b.inputs.length = τ.inputs := by rw [← hb]; rfl
    have hka : a.outputs.length = σ.locks.length := by rw [← ha, Transaction.bodyShape, List.length_map]
    have hkb : b.outputs.length = τ.locks.length := by rw [← hb, Transaction.bodyShape, List.length_map]
    rcases hc with rfl | hs | hn | ⟨hn, hk⟩
    · exact Transaction.sameBody_of_shape (ha.trans hb.symm) he
    · exact absurd (by omega) hs
    · exact absurd (hna ▸ hnb ▸ (Transaction.head_of_bodyPreimage he).2.2.1) hn
    · exact absurd (hka ▸ hkb ▸ (Transaction.inputs_of_bodyPreimage (by omega) he).2.1) hk

/-! ### Bytes moved between two outputs -/

/-- A payment of 1000 quanta under a lock of ten bytes and one of 600 under one byte. -/
def longThenShort : Transaction :=
  ⟨transactionVersion1, [TxIn.new ⟨Hash256.zero, 0⟩ []], [⟨1000, [0x51] ++ u64le 5000 ++ [0x51]⟩, ⟨600, [0x52]⟩], 0⟩

/-- A payment of 1000 quanta under one byte and one of 5000 under ten. -/
def shortThenLong : Transaction :=
  ⟨transactionVersion1, [TxIn.new ⟨Hash256.zero, 0⟩ []], [⟨1000, [0x51]⟩, ⟨5000, [0x51] ++ u64le 600 ++ [0x52]⟩], 0⟩

/-- Both pass the stateless checks and hash the same bytes, so a contract is shown one hash for
    both whatever the digest is; they pay differently. -/
theorem contract_hash_shared :
    longThenShort.validateStateless = .ok () ∧ shortThenLong.validateStateless = .ok () ∧
      longThenShort.bodyPreimage = shortThenLong.bodyPreimage ∧
      (∀ (H : Hasher) (time totalIn totalOut totalOut' : UInt64), (createTxContext H longThenShort time totalIn totalOut).txHash =
        (createTxContext H shortThenLong time totalIn totalOut').txHash) ∧
      longThenShort.outputs ≠ shortThenLong.outputs := by
  have hpre : longThenShort.bodyPreimage = shortThenLong.bodyPreimage := by decide
  refine ⟨by decide, by decide, hpre, fun H time totalIn totalOut totalOut' => ?_, by decide⟩
  simp only [createTxContext, Transaction.computeHash_eq, hpre]

end Scytale
