/-
  Scytale.Storage.RowCodec — the bytes of the rows the storage writes itself
  (crates/scytale-storage/src/engine.rs, tables.rs).

  Blocks, transactions and entries are stored under the canonical codec. Undo records, the
  records of an address and the index record of a block have formats of their own.
  - `undo_reads`, `addressTxRecord_reads`: each reader undoes its encoder, and accepts nothing
    else.
  - `row_codecs`: so what can be written is read back as itself, and every accepted row of the
    first two kinds is the encoding of what it is read as.
-/
import Scytale.Core.Codec
import Scytale.Storage.Engine

namespace Scytale

open Lib

/-! ## Undo records -/

/-- A result of the codec, as storage reports it. -/
def storageResult {α : Type} : Except SerializationError α → Except StorageError α
  | .ok a => .ok a
  | .error _ => .error .serialization

theorem storageResult_ok {α : Type} {r : Except SerializationError α} {a : α} : storageResult r = .ok a ↔ r = .ok a := by
  cases r <;> simp [storageResult]

namespace BlockUndo

def spentBytes (p : OutPoint × UtxoEntry) : Bytes := p.1.toFixedBytes ++ p.2.canonicalBytes

def canonicalBytes (u : BlockUndo) : Bytes :=
  u32le (UInt32.ofNat u.spent.length) ++ u.spent.flatMap spentBytes ++
    (u32le (UInt32.ofNat u.created.length) ++ u.created.flatMap OutPoint.toFixedBytes)

/-- Only an entry's encoder can fail. -/
def encode (u : BlockUndo) : Except SerializationError Bytes := do
  let spent ← u.spent.mapM fun p => do
    let entry ← p.2.toCanonicalBytes
    return p.1.toFixedBytes ++ entry
  return u32le (UInt32.ofNat u.spent.length) ++ spent.flatten ++
    (u32le (UInt32.ofNat u.created.length) ++ u.created.flatMap OutPoint.toFixedBytes)

def toBytes (u : BlockUndo) : Except StorageError Bytes := storageResult (encode u)

/-- Fewer than `2 ^ 32` items of either kind, with entries that can be encoded. -/
structure Storable (u : BlockUndo) : Prop where
  spent : u.spent.length < 2 ^ 32
  entries : ∀ p ∈ u.spent, p.2.encodable = true
  created : u.created.length < 2 ^ 32

end BlockUndo

namespace Decoder

/-- A count, then what it counts; no limit is set to it. -/
def unboundedList {α : Type} (dec : Decoder α) : Decoder (List α) := do
  let count ← u32
  readMany dec count.toNat

def spentUtxo : Decoder (OutPoint × UtxoEntry) := do
  let outpoint ← outPoint
  let entry ← utxoEntry
  return (outpoint, entry)

def blockUndo : Decoder BlockUndo := do
  let spent ← unboundedList spentUtxo
  let created ← unboundedList outPoint
  return ⟨spent, created⟩

end Decoder

def BlockUndo.fromBytes (bs : Bytes) : Except StorageError BlockUndo := storageResult (Decoder.blockUndo.fromCanonicalBytes bs)

theorem unboundedList_reads {α : Type} {ok : α → Prop} {enc : α → Bytes} {dec : Decoder α} (h : Reads ok enc dec) :
    Reads (fun l : List α => l.length < 2 ^ 32 ∧ ∀ a ∈ l, ok a)
      (fun l => u32le (UInt32.ofNat l.length) ++ l.flatMap enc) (Decoder.unboundedList dec) where
  reads l r hl := by
    have hn : (UInt32.ofNat l.length).toNat = l.length := by rw [UInt32.toNat_ofNat', Nat.mod_eq_of_lt hl.1]
    rw [List.append_assoc, Decoder.unboundedList, u32_reads.run_bind trivial, hn]
    exact (readMany_reads h l.length).reads l r ⟨rfl, hl.2⟩
  exact := by
    intro bs l r hb
    obtain ⟨n, r', -, hbs, hrest⟩ := u32_reads.of_bind hb
    obtain ⟨⟨hlen, hok⟩, hr'⟩ := (readMany_reads h n.toNat).exact hrest
    refine ⟨⟨hlen ▸ n.toNat_lt, hok⟩, ?_⟩
    rw [hbs, hr', hlen, UInt32.ofNat_toNat, List.append_assoc]

theorem spentUtxo_reads : Reads (fun p : OutPoint × UtxoEntry => p.2.encodable = true) BlockUndo.spentBytes
    Decoder.spentUtxo where
  reads p r hp := by
    rw [BlockUndo.spentBytes, List.append_assoc, Decoder.spentUtxo, outPoint_reads.run_bind trivial,
      utxoEntry_reads.run_bind hp]
    rfl
  exact := by
    intro bs p r hb
    obtain ⟨outpoint, r₁, -, h₁, hb⟩ := outPoint_reads.of_bind hb
    obtain ⟨entry, r₂, hentry, h₂, hb⟩ := utxoEntry_reads.of_bind hb
    cases hb
    exact ⟨hentry, by rw [h₁, h₂, BlockUndo.spentBytes, List.append_assoc]⟩

theorem undo_reads : Reads BlockUndo.Storable BlockUndo.canonicalBytes Decoder.blockUndo where
  reads u r hu := by
    rw [BlockUndo.canonicalBytes, List.append_assoc, Decoder.blockUndo,
      (unboundedList_reads spentUtxo_reads).run_bind ⟨hu.spent, hu.entries⟩,
      (unboundedList_reads outPoint_reads).run_bind ⟨hu.created, fun _ _ => trivial⟩]
    rfl
  exact := by
    intro bs u r hb
    obtain ⟨spent, r₁, hspent, h₁, hb⟩ := (unboundedList_reads spentUtxo_reads).of_bind hb
    obtain ⟨created, r₂, hcreated, h₂, hb⟩ := (unboundedList_reads outPoint_reads).of_bind hb
    cases hb
    exact ⟨⟨hspent.1, hspent.2, hcreated.1⟩, by simp only [h₁, h₂, BlockUndo.canonicalBytes, List.append_assoc]⟩

theorem BlockUndo.encode_of_storable {u : BlockUndo} (h : u.Storable) : u.encode = .ok u.canonicalBytes := by
  have hspent : (u.spent.mapM fun p => do
      let entry ← p.2.toCanonicalBytes
      return p.1.toFixedBytes ++ entry) = Except.ok (ε := SerializationError) (u.spent.map spentBytes) :=
    mapM_ok_of_forall fun p hp => by
      rw [UtxoEntry.toCanonicalBytes_of_encodable (h.entries p hp)]
      rfl
  rw [encode, hspent, canonicalBytes, List.flatMap_def]
  rfl

/-! ## The records of an address -/

namespace AddressTxRecord

/-- The optional token behind a flag. -/
def tokenBytes : Option Hash256 → Bytes
  | some token => 1 :: token.bytes
  | none => [0]

def canonicalBytes (r : AddressTxRecord) : Bytes :=
  r.txid.bytes ++ UtxoEntry.flagBytes r.isInput ++ UtxoEntry.flagBytes r.isOutput ++ u64le r.valueQuanta ++
    tokenBytes r.tokenId

end AddressTxRecord

namespace Decoder

def token : Decoder (Option Hash256) := do
  let hasToken ← u8
  if hasToken == 0 then return none
  else if hasToken == 1 then return some (← hash256)
  else throw .invalidEncoding

def addressTxRecord : Decoder AddressTxRecord := do
  let txid ← hash256
  let isInput ← bool
  let isOutput ← bool
  let valueQuanta ← u64
  let tokenId ← token
  return ⟨txid, isInput, isOutput, valueQuanta, tokenId⟩

end Decoder

/-- The encoder of the records of an address; it cannot fail. -/
def serializeAddressTxRecords (records : List AddressTxRecord) : Except SerializationError Bytes :=
  .ok (u32le (UInt32.ofNat records.length) ++ records.flatMap AddressTxRecord.canonicalBytes)

def deserializeAddressTxRecords (bytes : Bytes) : Except SerializationError (List AddressTxRecord) :=
  (Decoder.list Decoder.addressTxRecord).fromCanonicalBytes bytes

theorem token_reads : Reads (fun _ => True) AddressTxRecord.tokenBytes Decoder.token where
  reads t r _ := by
    cases t with
    | none =>
      rw [AddressTxRecord.tokenBytes, Decoder.token, u8_reads.run_bind trivial]
      rfl
    | some token =>
      rw [AddressTxRecord.tokenBytes, ← List.singleton_append, List.append_assoc, Decoder.token, u8_reads.run_bind trivial]
      show (Decoder.hash256 >>= fun t => pure (some t)) (token.bytes ++ r) = _
      rw [hash256_reads.run_bind trivial]
      rfl
  exact := by
    intro bs t r hb
    obtain ⟨flag, r₁, -, h₁, hb⟩ := u8_reads.of_bind hb
    refine ⟨trivial, ?_⟩
    split at hb
    · rename_i h0
      cases hb
      rw [h₁, eq_of_beq h0]
      rfl
    · split at hb
      · rename_i h1
        obtain ⟨token, r₂, -, h₂, hb⟩ := hash256_reads.of_bind hb
        cases hb
        rw [h₁, h₂, eq_of_beq h1]
        rfl
      · cases hb

theorem addressTxRecord_reads : Reads (fun _ => True) AddressTxRecord.canonicalBytes Decoder.addressTxRecord where
  reads a r _ := by
    simp only [AddressTxRecord.canonicalBytes, List.append_assoc]
    rw [Decoder.addressTxRecord, hash256_reads.run_bind trivial, bool_reads.run_bind trivial, bool_reads.run_bind trivial,
      u64_reads.run_bind trivial, token_reads.run_bind trivial]
    rfl
  exact := by
    intro bs a r hb
    obtain ⟨txid, r₁, -, h₁, hb⟩ := hash256_reads.of_bind hb
    obtain ⟨isInput, r₂, -, h₂, hb⟩ := bool_reads.of_bind hb
    obtain ⟨isOutput, r₃, -, h₃, hb⟩ := bool_reads.of_bind hb
    obtain ⟨value, r₄, -, h₄, hb⟩ := u64_reads.of_bind hb
    obtain ⟨token, r₅, -, h₅, hb⟩ := token_reads.of_bind hb
    cases hb
    refine ⟨trivial, ?_⟩
    simp only [h₁, h₂, h₃, h₄, h₅, AddressTxRecord.canonicalBytes, List.append_assoc]

/-! ## The index record of a block -/

namespace BlockMeta

/-- The eight bytes from `i` on. -/
def wordAt (b : Bytes) (i : Nat) : UInt64 := UInt64.ofNat (leNat ((b.drop i).take 8))

def toBytes (m : BlockMeta) : Bytes :=
  u64le m.height ++ (m.cumulativeWork.limbs.flatMap u64le ++ u64le m.timestamp)

/-- Bytes behind the record are not looked at. -/
def fromBytes (b : Bytes) : Option BlockMeta :=
  if b.length < 48 then none
  else some ⟨wordAt b 0, ⟨(List.range 4).map fun i => wordAt b (8 + i * 8), rfl⟩, wordAt b 40⟩

/-- Each word stands at its place. -/
theorem wordAt_words {ws : List UInt64} : ∀ {i : Nat} (h : i < ws.length), wordAt (ws.flatMap u64le) (i * 8) = ws[i] := by
  induction ws with
  | nil => intro i h; cases h
  | cons w ws ih =>
    intro i h
    cases i with
    | zero =>
      have hcut : ((w :: ws).flatMap u64le).take 8 = u64le w := by
        rw [List.flatMap_cons, ← u64le_length w, List.take_left]
      rw [wordAt, Nat.zero_mul, List.drop_zero, hcut, u64le, leNat_leBytes,
        Nat.mod_eq_of_lt (show w.toNat < 256 ^ 8 from w.toNat_lt)]
      exact UInt64.ofNat_toNat
    | succ i =>
      have hrest : ((w :: ws).flatMap u64le).drop ((i + 1) * 8) = (ws.flatMap u64le).drop (i * 8) := by
        rw [List.flatMap_cons, Nat.succ_mul, Nat.add_comm, ← List.drop_drop, ← u64le_length w, List.drop_left]
      have hi : i < ws.length := by simpa using h
      rw [wordAt, hrest, ← wordAt, ih hi, List.getElem_cons_succ]

theorem toBytes_words (m : BlockMeta) :
    m.toBytes = (m.height :: (m.cumulativeWork.limbs ++ [m.timestamp])).flatMap u64le := by
  simp [toBytes]

theorem fromBytes_toBytes (m : BlockMeta) : fromBytes m.toBytes = some m := by
  have hsize := m.cumulativeWork.size
  have hlen : m.toBytes.length = 48 := by
    simp only [toBytes, List.length_append, List.length_flatMap, u64le_length, List.map_const', List.sum_replicate, hsize]
    rfl
  have hwork : ((List.range 4).map fun i => wordAt m.toBytes (8 + i * 8)) = m.cumulativeWork.limbs := by
    refine List.ext_getElem (by simp [hsize]) fun i h _ => ?_
    have hi : i < 4 := by simpa using h
    rw [List.getElem_map, List.getElem_range, Nat.add_comm, ← Nat.succ_mul, toBytes_words,
      wordAt_words (by simp [hsize]; omega), List.getElem_cons_succ, List.getElem_append_left]
  have hheight : wordAt m.toBytes 0 = m.height := by
    rw [← Nat.zero_mul 8, toBytes_words, wordAt_words (by simp), List.getElem_cons_zero]
  have htime : wordAt m.toBytes 40 = m.timestamp := by
    rw [show 40 = 5 * 8 from rfl, toBytes_words, wordAt_words (by simp [hsize]), List.getElem_cons_succ]
    simp [hsize]
  rw [fromBytes, if_neg (by omega)]
  simp only [hwork, hheight, htime]

end BlockMeta

/-! ## The rows -/

/-- Undo records within the counts their format has, at most `maxVectorLength` records of an
    address and all index records are read back as what was written. Every accepted string of
    the first two kinds is what its value is written as: nothing is left over, and there is no
    second encoding. -/
theorem row_codecs :
    ((∀ u : BlockUndo, u.Storable → ∃ bs, u.toBytes = .ok bs ∧ BlockUndo.fromBytes bs = .ok u) ∧
      ∀ bs u, BlockUndo.fromBytes bs = .ok u → BlockUndo.toBytes u = .ok bs) ∧
    ((∀ records : List AddressTxRecord, records.length ≤ maxVectorLength →
        ∃ bs, serializeAddressTxRecords records = .ok bs ∧ deserializeAddressTxRecords bs = .ok records) ∧
      ∀ bs records, deserializeAddressTxRecords bs = .ok records → serializeAddressTxRecords records = .ok bs) ∧
    ∀ m : BlockMeta, BlockMeta.fromBytes m.toBytes = some m := by
  have hundo := Canonical.of_reads undo_reads fun _ hu => BlockUndo.encode_of_storable hu
  have hrecords : Canonical (fun l : List AddressTxRecord => l.length ≤ maxVectorLength ∧ ∀ a ∈ l, True)
      serializeAddressTxRecords (Decoder.list Decoder.addressTxRecord) :=
    .of_reads (list_reads addressTxRecord_reads) fun _ _ => rfl
  refine ⟨⟨fun u hu => ?_, fun bs u h => ?_⟩, ⟨fun records h => ?_, fun bs records h => ?_⟩, BlockMeta.fromBytes_toBytes⟩
  · obtain ⟨bs, hbs, hback⟩ := hundo.1 u hu
    exact ⟨bs, storageResult_ok.mpr hbs, storageResult_ok.mpr hback⟩
  · exact storageResult_ok.mpr (hundo.2 bs u (storageResult_ok.mp h))
  · exact hrecords.1 records ⟨h, fun _ _ => trivial⟩
  · exact hrecords.2 bs records h

end Scytale
