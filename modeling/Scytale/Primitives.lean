/-
  Scytale.Primitives — hashes, outpoints and outputs (crates/scytale-primitives).

  BLAKE3 is a third-party crate: every function that hashes takes the digest function as
  a parameter `H : Hasher`, and results hold for each such function.
-/
import Scytale.Lib.Bytes
import Scytale.Lib.Table

namespace Scytale

open Lib

/-- `Hash([u8; 32])`. -/
structure Hash256 where
  bytes : Bytes
  size : bytes.length = 32
  deriving DecidableEq

/-- `blake3::hash`: the digest of a byte string. -/
abbrev Hasher := Bytes → Hash256

namespace Hash256

theorem ext_bytes {a b : Hash256} (h : a.bytes = b.bytes) : a = b := by
  cases a; cases b; cases h; rfl

def zero : Hash256 := ⟨List.replicate 32 0, by simp⟩

def isZero (h : Hash256) : Bool := h.bytes.all (· == 0)

theorem eq_zero_of_byteVal {h : Hash256} (h0 : byteVal h.bytes = 0) : h = zero :=
  ext_bytes (byteVal_inj (by simp [h.size, zero]) (h0.trans (byteVal_zeros 32).symm))

instance : Ord Hash256 := ⟨compareOn bytes⟩

instance : Std.TransOrd Hash256 := inferInstanceAs (Std.TransCmp (compareOn bytes))

instance : Std.LawfulEqOrd Hash256 where
  eq_of_compare {a b} h := by
    have h' : compare a.bytes b.bytes = .eq := h
    exact ext_bytes (Std.compare_eq_iff_eq.mp h')

end Hash256

/-- Reference to one output of a transaction. -/
structure OutPoint where
  txid : Hash256
  index : UInt32
  deriving DecidableEq

namespace OutPoint

def null : OutPoint := ⟨Hash256.zero, 0xffffffff⟩

def isNull (o : OutPoint) : Bool := o.txid.isZero && o.index == 0xffffffff

/-- `to_fixed_bytes`: the txid, then the index, little-endian. -/
def toFixedBytes (o : OutPoint) : Bytes := o.txid.bytes ++ u32le o.index

@[simp] theorem toFixedBytes_length (o : OutPoint) : o.toFixedBytes.length = 36 := by
  simp [toFixedBytes, o.txid.size]

theorem toFixedBytes_inj {a b : OutPoint} (h : a.toFixedBytes = b.toFixedBytes) : a = b := by
  obtain ⟨h1, h2⟩ := List.append_inj h (by rw [a.txid.size, b.txid.size])
  cases a; cases b
  simp only [mk.injEq]
  exact ⟨Hash256.ext_bytes h1, u32le_inj h2⟩

instance : Ord OutPoint := ⟨compareLex (compareOn txid) (compareOn index)⟩

instance : Std.TransOrd OutPoint := inferInstanceAs (Std.TransCmp (compareLex (compareOn txid) (compareOn index)))

instance : Std.LawfulEqOrd OutPoint where
  eq_of_compare {a b} h := by
    have h' : compareLex (compareOn txid) (compareOn index) a b = .eq := h
    rw [compareLex_eq_eq] at h'
    obtain ⟨h1, h2⟩ := h'
    have e1 : a.txid = b.txid := Std.compare_eq_iff_eq.mp h1
    have e2 : a.index = b.index := Std.compare_eq_iff_eq.mp h2
    cases a; cases b
    cases e1; cases e2
    rfl

/-- The order of outpoints, in numbers. -/
theorem compare_lt_iff {a b : OutPoint} : compare a b = .lt ↔
    byteVal a.txid.bytes < byteVal b.txid.bytes ∨ (a.txid = b.txid ∧ a.index < b.index) := by
  show compareLex (compareOn txid) (compareOn index) a b = .lt ↔ _
  have htxid : compareOn txid a b = .lt ↔ byteVal a.txid.bytes < byteVal b.txid.bytes :=
    compare_bytes_lt (by rw [a.txid.size, b.txid.size])
  have heq : compareOn txid a b = .eq ↔ a.txid = b.txid := Table.compare_eq_eq a.txid b.txid
  have hidx : compare a.index b.index = .lt ↔ a.index < b.index := Std.LawfulLTCmp.eq_lt_iff_lt
  rw [compareLex, Ordering.then_eq_lt, htxid, heq, ← hidx]
  rfl

end OutPoint

/-- An output: a value in quanta and a locking condition. -/
structure TxOut where
  value : UInt64
  lockingCondition : Bytes
  deriving DecidableEq

/-- An output whose locking condition starts with OP_RETURN is a data carrier. -/
def TxOut.isOpReturn (o : TxOut) : Bool := o.lockingCondition.head? == some 0x6a

/-- `QUANTA_PER_SCY`. -/
def quantaPerScy : Nat := 100000000

/-- `u64::checked_add`. -/
def checkedAdd (a b : UInt64) : Option UInt64 := if a.toNat + b.toNat < 2 ^ 64 then some (a + b) else none

theorem checkedAdd_eq_some {a b c : UInt64} (h : checkedAdd a b = some c) : c.toNat = a.toNat + b.toNat := by
  unfold checkedAdd at h
  split at h
  · rename_i hlt
    cases h
    rw [UInt64.toNat_add, Nat.mod_eq_of_lt hlt]
  · cases h

theorem checkedAdd_of_lt {a b : UInt64} (h : a.toNat + b.toNat < 2 ^ 64) : checkedAdd a b = some (a + b) := if_pos h

theorem checkedAdd_eq_some_iff {a b c : UInt64} : checkedAdd a b = some c ↔ c.toNat = a.toNat + b.toNat := by
  constructor
  · exact checkedAdd_eq_some
  · intro h
    have hlt : a.toNat + b.toNat < 2 ^ 64 := h ▸ c.toNat_lt
    rw [checkedAdd_of_lt hlt]
    refine congrArg some (UInt64.toNat_inj.mp ?_)
    rw [UInt64.toNat_add, Nat.mod_eq_of_lt hlt, h]

end Scytale
