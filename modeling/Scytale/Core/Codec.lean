/-
  Scytale.Core.Codec — the canonical codec (crates/scytale-core/src/codec.rs).

  The readers are `deserialize_canonical` of each type, field after field;
  `fromCanonicalBytes` runs one and refuses bytes left over. The encoders of transactions
  stand in `Core.Transaction`.
  - `transaction_reads`, `block_reads`, …: each reader undoes its encoder, and accepts
    nothing else.
  - `canonical_codec`: so what is within the limits can be written and read back, and every
    accepted string is the encoding of what it is read as.
-/
import Scytale.Lib.Codec
import Scytale.Core.Utxo
import Scytale.Core.TxIdentity

namespace Scytale

open Lib

/-! ## Encoders -/

namespace Block

def canonicalBytes (b : Block) : Bytes :=
  b.header.canonicalBytes ++ u32le (UInt32.ofNat b.transactions.length) ++ b.transactions.flatMap Transaction.canonicalBytes

def toCanonicalBytes (b : Block) : Except SerializationError Bytes := do
  let txs ← b.transactions.mapM Transaction.toCanonicalBytes
  return b.header.canonicalBytes ++ u32le (UInt32.ofNat b.transactions.length) ++ txs.flatten

/-- No vector of the block is above the limit. -/
def decodable (b : Block) : Bool :=
  decide (b.transactions.length ≤ maxVectorLength) && b.transactions.all Transaction.decodable

end Block

/-- A header's encoder cannot fail. -/
def BlockHeader.toCanonicalBytes (h : BlockHeader) : Except SerializationError Bytes := .ok h.canonicalBytes

namespace UtxoEntry

def flagBytes (b : Bool) : Bytes := [if b then 1 else 0]

def canonicalBytes (e : UtxoEntry) : Bytes :=
  e.output.canonicalBytes ++ u64le e.blockHeight ++ flagBytes e.isCoinbase

def toCanonicalBytes (e : UtxoEntry) : Except SerializationError Bytes := do
  let output ← e.output.toCanonicalBytes
  return output ++ u64le e.blockHeight ++ flagBytes e.isCoinbase

def encodable (e : UtxoEntry) : Bool := e.output.encodable

end UtxoEntry

/-! ## Readers -/

/-- A reader of the program. -/
abbrev Decoder := Reader SerializationError

namespace Decoder

def u8 : Decoder UInt8 := do
  let bs ← readExact .unexpectedEof 1
  return UInt8.ofNat (leNat bs)

def u32 : Decoder UInt32 := do
  let bs ← readExact .unexpectedEof 4
  return UInt32.ofNat (leNat bs)

def u64 : Decoder UInt64 := do
  let bs ← readExact .unexpectedEof 8
  return UInt64.ofNat (leNat bs)

def bool : Decoder Bool := do
  let b ← u8
  if b == 0 then return false else if b == 1 then return true else throw .invalidEncoding

def hash256 : Decoder Hash256 := do
  let bs ← readExact .unexpectedEof 32
  if h : bs.length = 32 then return ⟨bs, h⟩ else throw .unexpectedEof

/-- A count of at most `maxVectorLength`, then what it counts. -/
def counted {α : Type} (body : Nat → Decoder α) : Decoder α := do
  let count ← u32
  if count.toNat > maxVectorLength then throw (.lengthExceedsLimit count.toNat maxVectorLength) else body count.toNat

def vec : Decoder Bytes := counted (readExact .unexpectedEof)

def list {α : Type} (dec : Decoder α) : Decoder (List α) := counted (readMany dec)

def outPoint : Decoder OutPoint := do
  let txid ← hash256
  let index ← u32
  return ⟨txid, index⟩

def txIn : Decoder TxIn := do
  let previousOutput ← outPoint
  let authorization ← vec
  let sequence ← u32
  return ⟨previousOutput, authorization, sequence⟩

def txOut : Decoder TxOut := do
  let value ← u64
  let lockingCondition ← vec
  return ⟨value, lockingCondition⟩

def transaction : Decoder Transaction := do
  let version ← u32
  let inputs ← list txIn
  let outputs ← list txOut
  let lockTime ← u64
  return ⟨version, inputs, outputs, lockTime⟩

def blockHeader : Decoder BlockHeader := do
  let version ← u32
  let previousBlockHash ← hash256
  let transactionCommitment ← hash256
  let utxoRoot ← hash256
  let timestamp ← u64
  let difficultyTarget ← u32
  let nonce ← u64
  return ⟨version, previousBlockHash, transactionCommitment, utxoRoot, timestamp, difficultyTarget, nonce⟩

def block : Decoder Block := do
  let header ← blockHeader
  let transactions ← list transaction
  return ⟨header, transactions⟩

def utxoEntry : Decoder UtxoEntry := do
  let output ← txOut
  let blockHeight ← u64
  let isCoinbase ← bool
  return ⟨output, blockHeight, isCoinbase⟩

/-- `from_canonical_bytes`: no byte may be left. -/
def fromCanonicalBytes {α : Type} (dec : Decoder α) (bs : Bytes) : Except SerializationError α :=
  match dec bs with
  | .error e => .error e
  | .ok (a, []) => .ok a
  | .ok (_, rest) => .error (.trailingBytes rest.length)

end Decoder

/-! ## The readers undo the encoders -/

theorem leNat_lt {bs : Bytes} {k : Nat} (h : bs.length = k) : leNat bs < 256 ^ k := by
  have := byteVal_lt bs.reverse
  rwa [List.length_reverse, h] at this

theorem leBytes_of_length {bs : Bytes} {k : Nat} (h : bs.length = k) : leBytes k (leNat bs) = bs := by
  rw [← h]
  exact leBytes_leNat bs

theorem u32le_leNat {bs : Bytes} (h : bs.length = 4) : u32le (UInt32.ofNat (leNat bs)) = bs := by
  rw [u32le, UInt32.toNat_ofNat', Nat.mod_eq_of_lt (show leNat bs < 2 ^ 32 from leNat_lt h)]
  exact leBytes_of_length h

theorem u64le_leNat {bs : Bytes} (h : bs.length = 8) : u64le (UInt64.ofNat (leNat bs)) = bs := by
  rw [u64le, UInt64.toNat_ofNat', Nat.mod_eq_of_lt (show leNat bs < 2 ^ 64 from leNat_lt h)]
  exact leBytes_of_length h

theorem leNat_singleton (b : UInt8) : leNat [b] = b.toNat := by simp [leNat, byteVal, byteRadix, Radix.value]

theorem u8_reads : Reads (fun _ => True) (fun b : UInt8 => [b]) Decoder.u8 := by
  refine (readExact_reads SerializationError.unexpectedEof 1).map (fun bs => UInt8.ofNat (leNat bs)) (fun b => [b])
    (fun _ => rfl) (fun _ _ => rfl) ?_ ?_
  · intro b _
    rw [leNat_singleton]
    exact UInt8.ofNat_toNat
  · intro bs h
    refine ⟨trivial, ?_⟩
    rcases bs with _ | ⟨b, _ | ⟨c, bs⟩⟩
    · cases h
    · rw [leNat_singleton]
      exact congrArg (fun x => [x]) UInt8.ofNat_toNat
    · cases h

theorem u32_reads : Reads (fun _ => True) u32le Decoder.u32 := by
  refine (readExact_reads SerializationError.unexpectedEof 4).map (fun bs => UInt32.ofNat (leNat bs)) u32le
    (fun _ => rfl) (fun _ _ => u32le_length _) ?_ ?_
  · intro x _
    rw [u32le, leNat_leBytes, Nat.mod_eq_of_lt (show x.toNat < 256 ^ 4 from x.toNat_lt)]
    exact UInt32.ofNat_toNat
  · intro bs h
    exact ⟨trivial, u32le_leNat h⟩

theorem u64_reads : Reads (fun _ => True) u64le Decoder.u64 := by
  refine (readExact_reads SerializationError.unexpectedEof 8).map (fun bs => UInt64.ofNat (leNat bs)) u64le
    (fun _ => rfl) (fun _ _ => u64le_length _) ?_ ?_
  · intro x _
    rw [u64le, leNat_leBytes, Nat.mod_eq_of_lt (show x.toNat < 256 ^ 8 from x.toNat_lt)]
    exact UInt64.ofNat_toNat
  · intro bs h
    exact ⟨trivial, u64le_leNat h⟩

theorem bool_reads : Reads (fun _ => True) UtxoEntry.flagBytes Decoder.bool where
  reads b r _ := by
    rw [Decoder.bool, UtxoEntry.flagBytes, u8_reads.run_bind trivial]
    cases b <;> rfl
  exact := by
    intro bs b r hb
    obtain ⟨x, r', -, hbs, hrest⟩ := u8_reads.of_bind hb
    refine ⟨trivial, ?_⟩
    split at hrest
    · rename_i h0
      cases hrest
      rw [hbs, eq_of_beq h0]
      rfl
    · split at hrest
      · rename_i h1
        cases hrest
        rw [hbs, eq_of_beq h1]
        rfl
      · cases hrest

theorem hash256_reads : Reads (fun _ => True) Hash256.bytes Decoder.hash256 where
  reads h r _ := by
    have := (readExact_reads SerializationError.unexpectedEof 32).run_bind h.size r fun bs =>
      (if hb : bs.length = 32 then return ⟨bs, hb⟩ else throw .unexpectedEof : Decoder Hash256)
    rw [Decoder.hash256, ← id_eq h.bytes, this, dif_pos h.size]
    rfl
  exact := by
    intro bs h r hb
    obtain ⟨x, r', hx, hbs, hrest⟩ := (readExact_reads SerializationError.unexpectedEof 32).of_bind hb
    rw [dif_pos hx] at hrest
    cases hrest
    exact ⟨trivial, hbs⟩

/-- A count and what it counts. -/
theorem counted_reads {α : Type} (ok : α → Prop) (enc : α → Bytes) (size : α → Nat) {body : Nat → Decoder α}
    (h : ∀ n, Reads (fun a => size a = n ∧ ok a) enc (body n)) :
    Reads (fun a => size a ≤ maxVectorLength ∧ ok a) (fun a => u32le (UInt32.ofNat (size a)) ++ enc a)
      (Decoder.counted body) where
  reads a r ha := by
    have hlt := maxVectorLength_lt
    have hn : (UInt32.ofNat (size a)).toNat = size a := by
      rw [UInt32.toNat_ofNat', Nat.mod_eq_of_lt (by have := ha.1; omega)]
    rw [List.append_assoc, Decoder.counted, u32_reads.run_bind trivial, hn, if_neg (by have := ha.1; omega)]
    exact (h (size a)).reads a r ⟨rfl, ha.2⟩
  exact := by
    intro bs a r hb
    obtain ⟨n, r', -, hbs, hrest⟩ := u32_reads.of_bind hb
    split at hrest
    · cases hrest
    · obtain ⟨⟨hsize, ha⟩, hr'⟩ := (h n.toNat).exact hrest
      refine ⟨⟨by omega, ha⟩, ?_⟩
      rw [hbs, hr', hsize, UInt32.ofNat_toNat, List.append_assoc]

theorem vec_reads : Reads (fun v : Bytes => v.length ≤ maxVectorLength ∧ True) vecBytes Decoder.vec :=
  counted_reads (fun _ => True) id List.length fun n => by
    have := readExact_reads SerializationError.unexpectedEof n
    exact ⟨fun v r hv => this.reads v r hv.1, fun hb => ⟨⟨(this.exact hb).1, trivial⟩, (this.exact hb).2⟩⟩

theorem list_reads {α : Type} {ok : α → Prop} {enc : α → Bytes} {dec : Decoder α} (h : Reads ok enc dec) :
    Reads (fun l : List α => l.length ≤ maxVectorLength ∧ ∀ a ∈ l, ok a)
      (fun l => u32le (UInt32.ofNat l.length) ++ l.flatMap enc) (Decoder.list dec) :=
  counted_reads (fun l : List α => ∀ a ∈ l, ok a) (fun l => l.flatMap enc) List.length (readMany_reads h)

theorem outPoint_reads : Reads (fun _ => True) OutPoint.toFixedBytes Decoder.outPoint where
  reads o r _ := by
    rw [OutPoint.toFixedBytes, List.append_assoc, Decoder.outPoint, hash256_reads.run_bind trivial,
      u32_reads.run_bind trivial]
    rfl
  exact := by
    intro bs o r hb
    obtain ⟨txid, r₁, -, h₁, hb⟩ := hash256_reads.of_bind hb
    obtain ⟨index, r₂, -, h₂, hb⟩ := u32_reads.of_bind hb
    cases hb
    exact ⟨trivial, by rw [h₁, h₂, OutPoint.toFixedBytes, List.append_assoc]⟩

theorem txIn_reads : Reads (fun i : TxIn => i.encodable = true) TxIn.canonicalBytes Decoder.txIn where
  reads i r hi := by
    rw [TxIn.canonicalBytes, List.append_assoc, List.append_assoc, Decoder.txIn, outPoint_reads.run_bind trivial,
      vec_reads.run_bind ⟨of_decide_eq_true hi, trivial⟩, u32_reads.run_bind trivial]
    rfl
  exact := by
    intro bs i r hb
    obtain ⟨o, r₁, -, h₁, hb⟩ := outPoint_reads.of_bind hb
    obtain ⟨auth, r₂, ⟨hauth, -⟩, h₂, hb⟩ := vec_reads.of_bind hb
    obtain ⟨sequence, r₃, -, h₃, hb⟩ := u32_reads.of_bind hb
    cases hb
    exact ⟨decide_eq_true hauth, by rw [h₁, h₂, h₃, TxIn.canonicalBytes, List.append_assoc, List.append_assoc]⟩

theorem txOut_reads : Reads (fun o : TxOut => o.encodable = true) TxOut.canonicalBytes Decoder.txOut where
  reads o r ho := by
    rw [TxOut.canonicalBytes, List.append_assoc, Decoder.txOut, u64_reads.run_bind trivial,
      vec_reads.run_bind ⟨of_decide_eq_true ho, trivial⟩]
    rfl
  exact := by
    intro bs o r hb
    obtain ⟨value, r₁, -, h₁, hb⟩ := u64_reads.of_bind hb
    obtain ⟨lock, r₂, ⟨hlock, -⟩, h₂, hb⟩ := vec_reads.of_bind hb
    cases hb
    exact ⟨decide_eq_true hlock, by rw [h₁, h₂, TxOut.canonicalBytes, List.append_assoc]⟩

theorem Transaction.decodable_iff (t : Transaction) : t.decodable = true ↔
    (t.inputs.length ≤ maxVectorLength ∧ ∀ i ∈ t.inputs, i.encodable = true) ∧
      (t.outputs.length ≤ maxVectorLength ∧ ∀ o ∈ t.outputs, o.encodable = true) := by
  simp only [decodable, encodable, Bool.and_eq_true, List.all_eq_true, decide_eq_true_eq]
  tauto

theorem transaction_reads :
    Reads (fun t : Transaction => t.decodable = true) Transaction.canonicalBytes Decoder.transaction where
  reads t r ht := by
    obtain ⟨hin, hout⟩ := t.decodable_iff.mp ht
    have hbytes : t.canonicalBytes ++ r = u32le t.version ++
        ((u32le (UInt32.ofNat t.inputs.length) ++ t.inputs.flatMap TxIn.canonicalBytes) ++
          ((u32le (UInt32.ofNat t.outputs.length) ++ t.outputs.flatMap TxOut.canonicalBytes) ++
            (u64le t.lockTime ++ r))) := by
      simp only [Transaction.canonicalBytes, List.append_assoc]
    rw [hbytes, Decoder.transaction, u32_reads.run_bind trivial, (list_reads txIn_reads).run_bind hin,
      (list_reads txOut_reads).run_bind hout, u64_reads.run_bind trivial]
    rfl
  exact := by
    intro bs t r hb
    obtain ⟨version, r₁, -, h₁, hb⟩ := u32_reads.of_bind hb
    obtain ⟨inputs, r₂, hin, h₂, hb⟩ := (list_reads txIn_reads).of_bind hb
    obtain ⟨outputs, r₃, hout, h₃, hb⟩ := (list_reads txOut_reads).of_bind hb
    obtain ⟨lockTime, r₄, -, h₄, hb⟩ := u64_reads.of_bind hb
    cases hb
    refine ⟨(Transaction.decodable_iff _).mpr ⟨hin, hout⟩, ?_⟩
    simp only [h₁, h₂, h₃, h₄, Transaction.canonicalBytes, List.append_assoc]

theorem blockHeader_reads : Reads (fun _ => True) BlockHeader.canonicalBytes Decoder.blockHeader where
  reads h r _ := by
    simp only [BlockHeader.canonicalBytes, List.append_assoc]
    rw [Decoder.blockHeader, u32_reads.run_bind trivial, hash256_reads.run_bind trivial, hash256_reads.run_bind trivial,
      hash256_reads.run_bind trivial, u64_reads.run_bind trivial, u32_reads.run_bind trivial, u64_reads.run_bind trivial]
    rfl
  exact := by
    intro bs h r hb
    obtain ⟨version, r₁, -, h₁, hb⟩ := u32_reads.of_bind hb
    obtain ⟨previous, r₂, -, h₂, hb⟩ := hash256_reads.of_bind hb
    obtain ⟨commitment, r₃, -, h₃, hb⟩ := hash256_reads.of_bind hb
    obtain ⟨root, r₄, -, h₄, hb⟩ := hash256_reads.of_bind hb
    obtain ⟨timestamp, r₅, -, h₅, hb⟩ := u64_reads.of_bind hb
    obtain ⟨target, r₆, -, h₆, hb⟩ := u32_reads.of_bind hb
    obtain ⟨nonce, r₇, -, h₇, hb⟩ := u64_reads.of_bind hb
    cases hb
    refine ⟨trivial, ?_⟩
    simp only [h₁, h₂, h₃, h₄, h₅, h₆, h₇, BlockHeader.canonicalBytes, List.append_assoc]

theorem Block.decodable_iff (b : Block) : b.decodable = true ↔
    b.transactions.length ≤ maxVectorLength ∧ ∀ t ∈ b.transactions, t.decodable = true := by
  simp only [decodable, Bool.and_eq_true, List.all_eq_true, decide_eq_true_eq]

theorem block_reads : Reads (fun b : Block => b.decodable = true) Block.canonicalBytes Decoder.block where
  reads b r hb := by
    rw [Block.canonicalBytes, List.append_assoc, List.append_assoc, ← List.append_assoc (u32le _), Decoder.block,
      blockHeader_reads.run_bind trivial, (list_reads transaction_reads).run_bind (b.decodable_iff.mp hb)]
    rfl
  exact := by
    intro bs b r hb
    obtain ⟨header, r₁, -, h₁, hb⟩ := blockHeader_reads.of_bind hb
    obtain ⟨txs, r₂, htxs, h₂, hb⟩ := (list_reads transaction_reads).of_bind hb
    cases hb
    refine ⟨(Block.decodable_iff _).mpr htxs, ?_⟩
    simp only [h₁, h₂, Block.canonicalBytes, List.append_assoc]

theorem utxoEntry_reads : Reads (fun e : UtxoEntry => e.encodable = true) UtxoEntry.canonicalBytes Decoder.utxoEntry where
  reads e r he := by
    rw [UtxoEntry.canonicalBytes, List.append_assoc, List.append_assoc, Decoder.utxoEntry, txOut_reads.run_bind he,
      u64_reads.run_bind trivial, bool_reads.run_bind trivial]
    rfl
  exact := by
    intro bs e r hb
    obtain ⟨output, r₁, hout, h₁, hb⟩ := txOut_reads.of_bind hb
    obtain ⟨height, r₂, -, h₂, hb⟩ := u64_reads.of_bind hb
    obtain ⟨flag, r₃, -, h₃, hb⟩ := bool_reads.of_bind hb
    cases hb
    exact ⟨hout, by simp only [h₁, h₂, h₃, UtxoEntry.canonicalBytes, List.append_assoc]⟩

/-! ## Writing and reading back -/

/-- What is within the limits is written and read back as itself, and every string that is
    read is what the value it is read as is written as. -/
def Canonical {α : Type} (within : α → Prop) (toCanonicalBytes : α → Except SerializationError Bytes) (dec : Decoder α) :
    Prop :=
  (∀ a, within a → ∃ bs, toCanonicalBytes a = .ok bs ∧ dec.fromCanonicalBytes bs = .ok a) ∧
    ∀ bs a, dec.fromCanonicalBytes bs = .ok a → toCanonicalBytes a = .ok bs

theorem fromCanonicalBytes_ok {α : Type} {dec : Decoder α} {bs : Bytes} {a : α}
    (h : dec.fromCanonicalBytes bs = .ok a) : dec bs = .ok (a, []) := by
  unfold Decoder.fromCanonicalBytes at h
  split at h
  · cases h
  · rename_i hd
    cases h
    exact hd
  · cases h

theorem Canonical.of_reads {α : Type} {ok : α → Prop} {enc : α → Bytes} {dec : Decoder α}
    {toCanonicalBytes : α → Except SerializationError Bytes} (h : Reads ok enc dec)
    (hto : ∀ a, ok a → toCanonicalBytes a = .ok (enc a)) : Canonical ok toCanonicalBytes dec := by
  refine ⟨fun a ha => ⟨enc a, hto a ha, ?_⟩, fun bs a hb => ?_⟩
  · have hr := h.reads a [] ha
    rw [List.append_nil] at hr
    rw [Decoder.fromCanonicalBytes, hr]
  · obtain ⟨ha, hbs⟩ := h.exact (fromCanonicalBytes_ok hb)
    rw [hto a ha, hbs, List.append_nil]

theorem Transaction.encodable_of_decodable {t : Transaction} (h : t.decodable = true) : t.encodable = true := by
  simp only [decodable, Bool.and_eq_true] at h
  exact h.1.1

theorem Block.toCanonicalBytes_of_encodable {b : Block} (h : b.encodable = true) :
    b.toCanonicalBytes = .ok b.canonicalBytes := by
  have htxs : b.transactions.mapM Transaction.toCanonicalBytes = .ok (b.transactions.map Transaction.canonicalBytes) :=
    mapM_ok_of_forall fun t ht => Transaction.toCanonicalBytes_of_encodable (List.all_eq_true.mp h t ht)
  rw [toCanonicalBytes, htxs]
  simp only [canonicalBytes, List.flatMap_def]
  rfl

theorem Block.encodable_of_decodable {b : Block} (h : b.decodable = true) : b.encodable = true :=
  List.all_eq_true.mpr fun t ht => Transaction.encodable_of_decodable ((b.decodable_iff.mp h).2 t ht)

theorem UtxoEntry.toCanonicalBytes_of_encodable {e : UtxoEntry} (h : e.encodable = true) :
    e.toCanonicalBytes = .ok e.canonicalBytes := by
  simp only [toCanonicalBytes, TxOut.toCanonicalBytes, serializeVec_of_le (of_decide_eq_true h)]
  rfl

/-- Headers, transactions, blocks and entries whose vectors are within the limit are
    written and read back as themselves. Every accepted string is what its value is
    written as: nothing is left over, there is no second encoding, and what was read can
    be written, so a transaction that was read has an identifier. -/
theorem canonical_codec :
    Canonical (fun _ => True) BlockHeader.toCanonicalBytes Decoder.blockHeader ∧
      Canonical (fun t : Transaction => t.decodable = true) Transaction.toCanonicalBytes Decoder.transaction ∧
      Canonical (fun b : Block => b.decodable = true) Block.toCanonicalBytes Decoder.block ∧
      Canonical (fun e : UtxoEntry => e.encodable = true) UtxoEntry.toCanonicalBytes Decoder.utxoEntry :=
  ⟨.of_reads blockHeader_reads fun _ _ => rfl,
    .of_reads transaction_reads fun _ ht =>
      Transaction.toCanonicalBytes_of_encodable (Transaction.encodable_of_decodable ht),
    .of_reads block_reads fun _ hb => Block.toCanonicalBytes_of_encodable (Block.encodable_of_decodable hb),
    .of_reads utxoEntry_reads fun _ he => UtxoEntry.toCanonicalBytes_of_encodable he⟩

end Scytale
