/-
  Scytale.Core.Sighash — what a signature commits to (`Transaction::compute_sighash`).

  The preimage concatenates the domain tag, every input's outpoint, every output's value
  and locking condition, the input index and the spent output's locking script. Neither
  the counts nor the lengths of the byte strings are in it, so where one field ends and
  the next begins is not fixed by the bytes.
  - `binds_iff_shape`: for two shapes (the number of inputs, the lengths of the locking
    conditions, the length of the script) the preimage binds every two spends of these
    shapes exactly when the shapes are equal, or give preimages of different lengths.
    Of one shape the index is bound up to its truncation to 32 bits.
  - `one_output_signs_for_two`: a signature for a transaction with one output is one for
    a transaction with two.
-/
import Scytale.Core.Transaction

namespace Scytale

open Lib

/-- `b"SCYTALE_SIGHASH_V1"`. -/
def sighashTag : Bytes :=
  [0x53, 0x43, 0x59, 0x54, 0x41, 0x4c, 0x45, 0x5f, 0x53, 0x49, 0x47, 0x48, 0x41, 0x53, 0x48, 0x5f, 0x56, 0x31]

/-- One output as `compute_sighash` feeds it to the hasher. -/
def TxOut.sighashBytes (o : TxOut) : Bytes := u64le o.value ++ o.lockingCondition

/-- The bytes `compute_sighash` hashes. -/
def Transaction.sighashPreimage (t : Transaction) (inputIndex : Nat) (prevLockingScript : Bytes) : Bytes :=
  sighashTag ++ (t.inputs.flatMap fun i => i.previousOutput.toFixedBytes) ++ t.outputs.flatMap TxOut.sighashBytes ++
    u32le (UInt32.ofNat inputIndex) ++ prevLockingScript

def Transaction.computeSighash (H : Hasher) (t : Transaction) (inputIndex : Nat) (prevLockingScript : Bytes) : Hash256 :=
  H (t.sighashPreimage inputIndex prevLockingScript)

/-- One input of a transaction, with the locking script of the output it spends. -/
structure Spend where
  tx : Transaction
  index : Nat
  prevLock : Bytes
  deriving DecidableEq

namespace Spend

def preimage (a : Spend) : Bytes := a.tx.sighashPreimage a.index a.prevLock

/-- The index names an input of the transaction. -/
def InRange (a : Spend) : Prop := a.index < a.tx.inputs.length

def outpoints (a : Spend) : List OutPoint := a.tx.inputs.map TxIn.previousOutput

/-- The same outpoints, outputs, input index and locking script. -/
def Same (a b : Spend) : Prop :=
  a.outpoints = b.outpoints ∧ a.tx.outputs = b.tx.outputs ∧ a.index = b.index ∧ a.prevLock = b.prevLock

/-- Equal preimages come from the same spend. -/
def Binds (a b : Spend) : Prop := a.preimage = b.preimage → Same a b

end Spend

/-- The lengths of the fields a preimage is made of. -/
structure Shape where
  inputs : Nat
  locks : List Nat
  prev : Nat
  deriving DecidableEq

namespace Shape

/-- The number of bytes after the tag. -/
def size (σ : Shape) : Nat := 36 * σ.inputs + (σ.locks.map (8 + ·)).sum + 4 + σ.prev

end Shape

def Spend.shape (a : Spend) : Shape :=
  ⟨a.tx.inputs.length, a.tx.outputs.map fun o => o.lockingCondition.length, a.prevLock.length⟩

/-! ## Equal shapes -/

theorem outpoints_cut : ∀ {xs ys : List TxIn}, xs.length = ys.length →
    (xs.flatMap fun i => i.previousOutput.toFixedBytes) = (ys.flatMap fun i => i.previousOutput.toFixedBytes) →
    xs.map TxIn.previousOutput = ys.map TxIn.previousOutput := by
  intro xs
  induction xs with
  | nil => intro ys h _; rw [List.eq_nil_of_length_eq_zero h.symm]
  | cons x xs ih =>
    intro ys h he
    rcases ys with _ | ⟨y, ys⟩
    · simp at h
    · rw [List.flatMap_cons, List.flatMap_cons] at he
      obtain ⟨h1, h2⟩ := List.append_inj he (by simp)
      rw [List.map_cons, List.map_cons, OutPoint.toFixedBytes_inj h1, ih (by simpa using h) h2]

theorem outputs_cut : ∀ {xs ys : List TxOut},
    xs.map (fun o => o.lockingCondition.length) = ys.map (fun o => o.lockingCondition.length) →
    xs.flatMap TxOut.sighashBytes = ys.flatMap TxOut.sighashBytes → xs = ys := by
  intro xs
  induction xs with
  | nil => intro ys h _; cases ys with
    | nil => rfl
    | cons y ys => simp at h
  | cons x xs ih =>
    intro ys h he
    rcases ys with _ | ⟨y, ys⟩
    · simp at h
    · simp only [List.map_cons, List.cons.injEq] at h
      rw [List.flatMap_cons, List.flatMap_cons] at he
      obtain ⟨h1, h2⟩ := List.append_inj he (by simp [TxOut.sighashBytes, h.1])
      obtain ⟨h3, h4⟩ := List.append_inj h1 (by simp)
      have hxy : x = y := by
        obtain ⟨v, l⟩ := x
        obtain ⟨w, m⟩ := y
        simp only [TxOut.mk.injEq]
        exact ⟨u64le_inj h3, h4⟩
      rw [hxy, ih h.2 h2]

theorem flatMap_outpoints_length (is : List TxIn) :
    (is.flatMap fun i => i.previousOutput.toFixedBytes).length = 36 * is.length := by
  induction is with
  | nil => rfl
  | cons i is ih => rw [List.flatMap_cons, List.length_append, ih, OutPoint.toFixedBytes_length, List.length_cons]; omega

theorem flatMap_outputs_length (os : List TxOut) :
    (os.flatMap TxOut.sighashBytes).length = ((os.map fun o => o.lockingCondition.length).map (8 + ·)).sum := by
  induction os with
  | nil => rfl
  | cons o os ih => simp [ih, TxOut.sighashBytes, Nat.add_assoc]

theorem Spend.preimage_length (a : Spend) : a.preimage.length = 18 + a.shape.size := by
  simp only [preimage, Transaction.sighashPreimage, List.length_append, flatMap_outpoints_length, flatMap_outputs_length,
    u32le_length, shape, Shape.size, sighashTag, List.length_cons, List.length_nil]
  omega

/-- Of one shape the preimage determines the spend, the index up to its truncation. -/
theorem Spend.same_of_shape {a b : Spend} (hs : a.shape = b.shape) (h : a.preimage = b.preimage) :
    a.outpoints = b.outpoints ∧ a.tx.outputs = b.tx.outputs ∧ UInt32.ofNat a.index = UInt32.ofNat b.index ∧
      a.prevLock = b.prevLock := by
  simp only [shape, Shape.mk.injEq] at hs
  obtain ⟨hin, hout, hprev⟩ := hs
  -- cut from the right: the script, the index, the outputs, the outpoints
  unfold preimage Transaction.sighashPreimage at h
  obtain ⟨h, hp⟩ := List.append_inj' h hprev
  obtain ⟨h, hi⟩ := List.append_inj' h (by simp)
  obtain ⟨h, ho⟩ := List.append_inj' h (by rw [flatMap_outputs_length, flatMap_outputs_length, hout])
  obtain ⟨-, hx⟩ := List.append_inj' h (by rw [flatMap_outpoints_length, flatMap_outpoints_length, hin])
  exact ⟨outpoints_cut hin hx, outputs_cut hout ho, u32le_inj hi, hp⟩

/-! ## Different shapes of one size -/

/-- The spend of a given shape whose bytes are all zero but for the index. -/
def Shape.zeroSpend (σ : Shape) (index : Nat) : Spend where
  tx := ⟨1, List.replicate σ.inputs ⟨⟨Hash256.zero, 0⟩, [], 0⟩, σ.locks.map fun l => ⟨0, List.replicate l 0⟩, 0⟩
  index := index
  prevLock := List.replicate σ.prev 0

theorem Shape.zeroSpend_shape (σ : Shape) (i : Nat) : (σ.zeroSpend i).shape = σ := by
  simp [zeroSpend, Spend.shape, Function.comp_def]

theorem flatMap_zeros {α : Type} (f : α → Bytes) (g : α → Nat) : ∀ (l : List α), (∀ a ∈ l, f a = List.replicate (g a) 0) →
    l.flatMap f = List.replicate (l.map g).sum 0 := by
  intro l
  induction l with
  | nil => intro _; rfl
  | cons a l ih =>
    intro h
    rw [List.flatMap_cons, h a List.mem_cons_self, ih fun b hb => h b (List.mem_cons_of_mem _ hb), List.map_cons,
      List.sum_cons, List.replicate_add]

/-- Its preimage is the tag and zeros, as many as its size says. -/
theorem Shape.zeroSpend_preimage (σ : Shape) {i : Nat} (hi : UInt32.ofNat i = 0) :
    (σ.zeroSpend i).preimage = sighashTag ++ List.replicate σ.size 0 := by
  have h1 : ((σ.zeroSpend i).tx.inputs.flatMap fun j => j.previousOutput.toFixedBytes) =
      List.replicate (36 * σ.inputs) 0 := by
    rw [flatMap_zeros _ (fun _ => 36)]
    · simp [zeroSpend, Nat.mul_comm]
    · intro j hj
      rw [List.eq_of_mem_replicate hj]
      decide
  have h2 : (σ.zeroSpend i).tx.outputs.flatMap TxOut.sighashBytes = List.replicate (σ.locks.map (8 + ·)).sum 0 := by
    rw [flatMap_zeros _ (fun o => 8 + o.lockingCondition.length)]
    · simp [zeroSpend, Function.comp_def]
    · intro o ho
      obtain ⟨l, -, rfl⟩ := List.mem_map.mp ho
      have hz : u64le 0 = List.replicate 8 0 := by decide
      simp only [TxOut.sighashBytes, hz, List.length_replicate, List.replicate_add]
  have h3 : u32le (UInt32.ofNat i) = List.replicate 4 0 := by rw [hi]; decide
  rw [Spend.preimage, Transaction.sighashPreimage, h1, h2]
  show sighashTag ++ _ ++ _ ++ u32le (UInt32.ofNat i) ++ List.replicate σ.prev 0 = _
  rw [h3, size]
  simp only [List.replicate_add, List.append_assoc]

/-- The preimage binds all spends of two shapes exactly when the shapes are equal (with
    at most `2 ^ 32` inputs, which the index's 32 bits tell apart) or differ in size, or
    one of them has no input to spend. -/
theorem binds_iff_shape (σ τ : Shape) :
    (∀ a b : Spend, a.shape = σ → b.shape = τ → a.InRange → b.InRange → Spend.Binds a b) ↔
      σ.inputs = 0 ∨ τ.inputs = 0 ∨ σ.size ≠ τ.size ∨ (σ = τ ∧ σ.inputs ≤ 2 ^ 32) := by
  constructor
  · intro h
    by_contra hc
    simp only [not_or, not_and, not_le] at hc
    obtain ⟨hσ, hτ, hsize, hbig⟩ := hc
    have hsize : σ.size = τ.size := by omega
    have hin : ∀ (ρ : Shape) (i : Nat), i < ρ.inputs → (ρ.zeroSpend i).InRange := by
      intro ρ i hi
      simpa [Spend.InRange, Shape.zeroSpend] using hi
    have hzero : UInt32.ofNat 0 = 0 := rfl
    by_cases e : σ = τ
    · -- one shape with more than 2 ^ 32 inputs: the indices 0 and 2 ^ 32 are truncated alike
      subst e
      have hb := hbig rfl
      have hwrap : UInt32.ofNat (2 ^ 32) = 0 := by decide
      have := h (σ.zeroSpend 0) (σ.zeroSpend (2 ^ 32)) (σ.zeroSpend_shape _) (σ.zeroSpend_shape _)
        (hin σ 0 (by omega)) (hin σ _ hb) (by rw [σ.zeroSpend_preimage hzero, σ.zeroSpend_preimage hwrap])
      have hidx : (0 : Nat) = 2 ^ 32 := this.2.2.1
      omega
    · -- two shapes of one size: both preimages are the tag and the same number of zeros
      have := h (σ.zeroSpend 0) (τ.zeroSpend 0) (σ.zeroSpend_shape _) (τ.zeroSpend_shape _)
        (hin σ 0 (by omega)) (hin τ 0 (by omega))
        (by rw [σ.zeroSpend_preimage hzero, τ.zeroSpend_preimage hzero, hsize])
      obtain ⟨h1, h2, -, h4⟩ := this
      refine e ?_
      rw [← σ.zeroSpend_shape 0, ← τ.zeroSpend_shape 0, Spend.shape, Spend.shape, h2, h4]
      have := congrArg List.length h1
      simp only [Spend.outpoints, List.length_map] at this
      rw [this]
  · intro hc a b ha hb hra hrb hpre
    unfold Spend.InRange at hra hrb
    have hlen := congrArg List.length hpre
    rw [a.preimage_length, b.preimage_length, ha, hb] at hlen
    have hna : a.tx.inputs.length = σ.inputs := by rw [← ha]; rfl
    have hnb : b.tx.inputs.length = τ.inputs := by rw [← hb]; rfl
    rcases hc with h0 | h0 | hne | ⟨rfl, hle⟩
    · omega
    · omega
    · exact absurd (by omega) hne
    · obtain ⟨h1, h2, h3, h4⟩ := Spend.same_of_shape (ha.trans hb.symm) hpre
      have := congrArg UInt32.toNat h3
      rw [UInt32.toNat_ofNat', UInt32.toNat_ofNat', Nat.mod_eq_of_lt (by omega), Nat.mod_eq_of_lt (by omega)] at this
      exact ⟨h1, h2, this, h4⟩

/-- A payment of 1000 quanta under a lock of ten bytes. -/
def oneOutput : Spend where
  tx := ⟨1, [TxIn.new ⟨Hash256.zero, 0⟩ []], [⟨1000, [0x51] ++ u64le 5000 ++ [0x51]⟩], 0⟩
  index := 0
  prevLock := [0x51]

/-- Payments of 1000 and of 5000 quanta, each under a lock of one byte. -/
def twoOutputs : Spend where
  tx := ⟨1, [TxIn.new ⟨Hash256.zero, 0⟩ []], [⟨1000, [0x51]⟩, ⟨5000, [0x51]⟩], 0⟩
  index := 0
  prevLock := [0x51]

/-- Both pass the stateless checks and hash the same bytes, but pay differently. -/
theorem one_output_signs_for_two :
    oneOutput.tx.validateStateless = .ok () ∧ twoOutputs.tx.validateStateless = .ok () ∧ oneOutput.InRange ∧
      twoOutputs.InRange ∧ oneOutput.tx.outputs ≠ twoOutputs.tx.outputs ∧ ¬ Spend.Binds oneOutput twoOutputs := by
  refine ⟨by decide, by decide, by unfold Spend.InRange; decide, by unfold Spend.InRange; decide, by decide, ?_⟩
  intro h
  have := (h (by decide)).2.1
  exact absurd this (by decide)

end Scytale
