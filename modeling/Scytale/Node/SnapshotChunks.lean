/-
  Scytale.Node.SnapshotChunks — handing a UTXO snapshot out in chunks
  (apps/scytale-node/src/node.rs).

  Each request exports the whole table and cuts one chunk out of it. The number of chunks is
  counted in 32 bits, where a chunk begins in 64.
  - `chunkEntries_eq_window`: a chunk is a window of the entries, also where its beginning
    saturates.
  - `le_totalChunks_mul`: as many chunks as are counted reach the end of the entries.
  - `snapshot_chunks_cover`: the chunks in order are the snapshot.
-/
import Scytale.Node.Snapshot
import Scytale.Lib.Chunks

namespace Scytale

open Lib

/-- `usize::MAX`, of 64 bits. -/
def usizeMax : Nat := 2 ^ 64 - 1

/-- `u32::div_ceil`. -/
def divCeil (a b : UInt32) : UInt32 := if a % b > 0 then a / b + 1 else a / b

/-- The size asked for, or the default. -/
def effectiveChunkSize (chunkSize : UInt32) : UInt32 := if chunkSize = 0 then 2000 else chunkSize

def totalChunks (totalEntries : Nat) (chunkSize : UInt32) : UInt32 :=
  if totalEntries = 0 then 1 else divCeil (UInt32.ofNat totalEntries) chunkSize

/-- `entries[start..end]`, on the wire. -/
def chunkEntries (entries : List (OutPoint × UtxoEntry)) (chunkIndex chunkSize : UInt32) : List UtxoWireEntryDto :=
  let start := min (chunkIndex.toNat * chunkSize.toNat) usizeMax
  if start ≥ entries.length then []
  else
    let stop := min (start + chunkSize.toNat) entries.length
    ((entries.drop start).take (stop - start)).map fun p => wireEntry p.1 p.2.output

section
variable (H : Hasher)

/-- The block's hash, the index, the number of chunks and the chunk. -/
def exportSnapshotChunk (node : Node) (blockHashHex : Bytes) (chunkIndex chunkSize : UInt32) :
    Bytes × UInt32 × UInt32 × List UtxoWireEntryDto :=
  let snapshot := node.storage.exportUtxoSnapshot H
  let chunkSize := effectiveChunkSize chunkSize
  let targetHashHex :=
    if blockHashHex = [] ∨ blockHashHex = toHex Hash256.zero.bytes then toHex snapshot.blockHash.bytes else blockHashHex
  (targetHashHex, chunkIndex, totalChunks snapshot.entries.length chunkSize,
    chunkEntries snapshot.entries chunkIndex chunkSize)

end

variable {H : Hasher}

/-! ## Arithmetic -/

theorem effectiveChunkSize_pos (chunkSize : UInt32) : 0 < (effectiveChunkSize chunkSize).toNat := by
  by_cases h : chunkSize = 0
  · rw [effectiveChunkSize, if_pos h]
    decide
  · rw [effectiveChunkSize, if_neg h]
    exact Nat.pos_of_ne_zero fun h0 => h (UInt32.toNat_inj.mp h0)

/-- The rounded quotient covers the dividend. -/
theorem le_divCeil_mul {a b : UInt32} (hb : 0 < b.toNat) : a.toNat ≤ (divCeil a b).toNat * b.toNat := by
  have hdiv := Nat.div_add_mod' a.toNat b.toNat
  by_cases h : a % b > 0
  · have hpos : 0 < a.toNat % b.toNat := UInt32.lt_iff_toNat_lt.mp h
    have hmod := Nat.mod_lt a.toNat hb
    -- where something remains the quotient is below the dividend, and one more fits in 32 bits
    have hle : a.toNat / b.toNat ≤ a.toNat / b.toNat * b.toNat := Nat.le_mul_of_pos_right _ hb
    have hone : a.toNat / b.toNat + 1 < 2 ^ 32 := by
      have := a.toNat_lt
      omega
    have hceil : (divCeil a b).toNat = a.toNat / b.toNat + 1 := by
      rw [divCeil, if_pos h, UInt32.toNat_add, UInt32.toNat_div]
      exact Nat.mod_eq_of_lt hone
    rw [hceil, Nat.succ_mul]
    omega
  · have hzero : a.toNat % b.toNat = 0 := Nat.eq_zero_of_not_pos fun hpos => h (UInt32.lt_iff_toNat_lt.mpr hpos)
    rw [divCeil, if_neg h, UInt32.toNat_div]
    omega

/-- The chunks reach the end of the entries. -/
theorem le_totalChunks_mul {n : Nat} (hn : n < 2 ^ 32) {chunkSize : UInt32} (hsize : 0 < chunkSize.toNat) :
    n ≤ (totalChunks n chunkSize).toNat * chunkSize.toNat := by
  by_cases h : n = 0
  · rw [h]
    exact Nat.zero_le _
  · have hround : (UInt32.ofNat n).toNat = n := by
      rw [UInt32.toNat_ofNat']
      exact Nat.mod_eq_of_lt hn
    rw [totalChunks, if_neg h]
    calc n = (UInt32.ofNat n).toNat := hround.symm
      _ ≤ _ := le_divCeil_mul hsize

/-! ## Chunks -/

/-- A beginning that saturates is behind the end. -/
theorem chunkEntries_eq_window {entries : List (OutPoint × UtxoEntry)} (hn : entries.length < 2 ^ 32)
    (chunkIndex chunkSize : UInt32) : chunkEntries entries chunkIndex chunkSize =
      window chunkSize.toNat chunkIndex.toNat (entries.map fun p => wireEntry p.1 p.2.output) := by
  have hmax : usizeMax = 18446744073709551615 := rfl
  by_cases hstart : min (chunkIndex.toNat * chunkSize.toNat) usizeMax ≥ entries.length
  · rw [window_eq_nil (by rw [List.length_map]; omega)]
    exact if_pos hstart
  · have hmin : min (chunkIndex.toNat * chunkSize.toNat) usizeMax = chunkIndex.toNat * chunkSize.toNat := by
      have h1 := chunkIndex.toNat_lt
      have h2 := chunkSize.toNat_lt
      have := Nat.mul_le_mul (Nat.le_pred_of_lt h1) (Nat.le_pred_of_lt h2)
      omega
    rw [hmin] at hstart
    simp only [chunkEntries, hmin, if_neg hstart]
    rw [window, List.map_take, List.map_drop]
    -- a chunk cut off at the end leaves out nothing
    refine List.take_eq_take_iff.mpr ?_
    rw [List.length_drop, List.length_map]
    omega

theorem wireEntry_inj {o o' : OutPoint} {out out' : TxOut} (h : wireEntry o out = wireEntry o' out') :
    o = o' ∧ out = out' := by
  obtain ⟨txid, index⟩ := o
  obtain ⟨value, lockingCondition⟩ := out
  simp only [wireEntry, UtxoWireEntryDto.mk.injEq] at h
  obtain ⟨htxid, rfl, rfl, hlock⟩ := h
  obtain rfl := Hash256.ext_bytes (toHex_inj htxid)
  obtain rfl := toHex_inj hlock
  exact ⟨rfl, rfl⟩

/-- No row is shown twice. -/
theorem wire_rows_nodup (db : StorageEngine) : (db.utxoRows.map fun p => wireEntry p.1 p.2.output).Nodup := by
  have hkeys : (db.utxoRows.map (·.1)).Nodup := (db.utxoRows_perm.map _).nodup_iff.mpr (Table.nodup_keys _)
  refine List.Nodup.map_on ?_ (List.Nodup.of_map _ hkeys)
  intro p hp q hq h
  exact List.inj_on_of_nodup_map hkeys hp hq (wireEntry_inj h).1

/-- For every storage of fewer than `2 ^ 32` entries and every chunk size, the default one
    included: the number of chunks is the same with each, the chunks one after the other are
    the entries of the snapshot in their order, none twice, and there is nothing behind them. -/
theorem snapshot_chunks_cover (H : Hasher) (node : Node) (blockHashHex : Bytes) (chunkSize : UInt32)
    (hn : (node.storage.exportUtxoSnapshot H).entries.length < 2 ^ 32) :
    let wire := (node.storage.exportUtxoSnapshot H).entries.map fun p => wireEntry p.1 p.2.output
    let chunk := fun i => exportSnapshotChunk H node blockHashHex i chunkSize
    ∃ count : UInt32, (∀ i, (chunk i).2.2.1 = count) ∧ wire.Nodup ∧
      (List.range count.toNat).flatMap (fun i => (chunk (UInt32.ofNat i)).2.2.2) = wire ∧
      ∀ i, count ≤ i → (chunk i).2.2.2 = [] := by
  intro wire chunk
  have hsize := effectiveChunkSize_pos chunkSize
  have hreach := le_totalChunks_mul hn hsize
  have hlen : wire.length = (node.storage.exportUtxoSnapshot H).entries.length := List.length_map _
  have hchunk : ∀ i, (chunk i).2.2.2 = window (effectiveChunkSize chunkSize).toNat i.toNat wire := fun i =>
    chunkEntries_eq_window hn i _
  refine ⟨totalChunks (node.storage.exportUtxoSnapshot H).entries.length (effectiveChunkSize chunkSize), fun _ => rfl,
    wire_rows_nodup node.storage, ?_, ?_⟩
  · refine Eq.trans (List.flatMap_congr fun i hi => ?_) (flatMap_window_eq (hlen.le.trans hreach))
    have hlt : i < 2 ^ 32 := Nat.lt_trans (List.mem_range.mp hi) (UInt32.toNat_lt _)
    rw [hchunk, UInt32.toNat_ofNat', Nat.mod_eq_of_lt hlt]
  · intro i hi
    have := Nat.mul_le_mul_right (effectiveChunkSize chunkSize).toNat (UInt32.le_iff_toNat_le.mp hi)
    rw [hchunk, window_eq_nil]
    omega

set_option maxRecDepth 10000 in
/-- A fresh node hands its two outputs out in two chunks of one. -/
theorem snapshot_chunks_cover_genesis : let node := freshNode Blake3.digest
    (exportSnapshotChunk Blake3.digest node [] 0 1).2.2.1 = 2 ∧
      ((List.range 2).flatMap fun i => (exportSnapshotChunk Blake3.digest node [] (UInt32.ofNat i) 1).2.2.2) =
        (node.storage.exportUtxoSnapshot Blake3.digest).entries.map fun p => wireEntry p.1 p.2.output := by
  intro node
  have hn : (node.storage.exportUtxoSnapshot Blake3.digest).entries.length = 2 := by decide +kernel
  obtain ⟨count, hcount, -, hcover, -⟩ := snapshot_chunks_cover Blake3.digest node [] 1 (by rw [hn]; decide)
  have htwo : (exportSnapshotChunk Blake3.digest node [] 0 1).2.2.1 = 2 := by decide +kernel
  rw [← hcount 0, htwo] at hcover
  exact ⟨htwo, hcover⟩

end Scytale
