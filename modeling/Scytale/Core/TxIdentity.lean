/-
  Scytale.Core.TxIdentity — the canonical bytes of a transaction determine it.

  - `canonicalBytes_inj`: two encodable transactions whose counts fit the four bytes they
    are written in have equal bytes only when they are equal.
  - `txid_inj`: so their identifiers differ, unless the digest collides on the two strings.
-/
import Scytale.Lib.Codec
import Scytale.Core.Transaction

namespace Scytale

open Lib

/-- The counts fit the `u32` they are written as, as those of every decoded transaction do
    (the decoder refuses a count above `maxVectorLength`). -/
def Transaction.sized (t : Transaction) : Prop := t.inputs.length < 2 ^ 32 ∧ t.outputs.length < 2 ^ 32

instance (t : Transaction) : Decidable t.sized :=
  inferInstanceAs (Decidable (t.inputs.length < 2 ^ 32 ∧ t.outputs.length < 2 ^ 32))

theorem maxVectorLength_lt : maxVectorLength < 2 ^ 32 := by decide

theorem txIn_delimits : SelfDelimiting (fun i : TxIn => i.encodable = true) TxIn.canonicalBytes := by
  intro a b r s ha hb h
  have ha : a.authorization.length ≤ maxVectorLength := of_decide_eq_true ha
  have hb : b.authorization.length ≤ maxVectorLength := of_decide_eq_true hb
  have hmax := maxVectorLength_lt
  simp only [TxIn.canonicalBytes, List.append_assoc] at h
  have houtpoint : SelfDelimiting (fun _ => True) OutPoint.toFixedBytes :=
    SelfDelimiting.fixed OutPoint.toFixedBytes_length OutPoint.toFixedBytes_inj
  obtain ⟨h1, h⟩ := houtpoint trivial trivial h
  obtain ⟨h2, h⟩ := vec_delimits (show a.authorization.length < 2 ^ 32 by omega) (show _ < 2 ^ 32 by omega) h
  obtain ⟨h3, hrs⟩ := u32le_delimits trivial trivial h
  refine ⟨?_, hrs⟩
  obtain ⟨o, au, sq⟩ := a
  obtain ⟨o', au', sq'⟩ := b
  cases h1; cases h2; cases h3
  rfl

theorem txOut_delimits : SelfDelimiting (fun o : TxOut => o.encodable = true) TxOut.canonicalBytes := by
  intro a b r s ha hb h
  have ha : a.lockingCondition.length ≤ maxVectorLength := of_decide_eq_true ha
  have hb : b.lockingCondition.length ≤ maxVectorLength := of_decide_eq_true hb
  have hmax := maxVectorLength_lt
  simp only [TxOut.canonicalBytes, List.append_assoc] at h
  obtain ⟨h1, h⟩ := u64le_delimits trivial trivial h
  obtain ⟨h2, hrs⟩ := vec_delimits (show a.lockingCondition.length < 2 ^ 32 by omega) (show _ < 2 ^ 32 by omega) h
  refine ⟨?_, hrs⟩
  obtain ⟨v, l⟩ := a
  obtain ⟨v', l'⟩ := b
  cases h1; cases h2
  rfl

namespace Transaction

theorem canonicalBytes_inj {a b : Transaction} (ha : a.encodable = true) (hb : b.encodable = true) (sa : a.sized)
    (sb : b.sized) (h : a.canonicalBytes = b.canonicalBytes) : a = b := by
  simp only [encodable, Bool.and_eq_true, List.all_eq_true] at ha hb
  simp only [canonicalBytes, List.append_assoc] at h
  obtain ⟨h1, h⟩ := u32le_delimits trivial trivial h
  obtain ⟨h2, h⟩ := count_delimits sa.1 sb.1 h
  obtain ⟨h3, h⟩ := txIn_delimits.list h2 ha.1 hb.1 h
  obtain ⟨h4, h⟩ := count_delimits sa.2 sb.2 h
  obtain ⟨h5, h⟩ := txOut_delimits.list h4 ha.2 hb.2 h
  have h6 := u64le_inj h
  obtain ⟨v, is, os, lt⟩ := a
  obtain ⟨v', is', os', lt'⟩ := b
  cases h1; cases h3; cases h5; cases h6
  rfl

end Transaction

/-- The digest has no collision among the given strings. -/
def CollisionFree (H : Hasher) (strings : List Bytes) : Prop := ∀ x ∈ strings, ∀ y ∈ strings, H x = H y → x = y

instance (H : Hasher) (strings : List Bytes) : Decidable (CollisionFree H strings) :=
  inferInstanceAs (Decidable (∀ x ∈ strings, ∀ y ∈ strings, H x = H y → x = y))

theorem txid_inj {H : Hasher} {strings : List Bytes} (hH : CollisionFree H strings) {a b : Transaction}
    (ma : a.canonicalBytes ∈ strings) (mb : b.canonicalBytes ∈ strings) (ha : a.encodable = true) (hb : b.encodable = true)
    (sa : a.sized) (sb : b.sized) (h : a.txid H = b.txid H) : a = b :=
  Transaction.canonicalBytes_inj ha hb sa sb (hH _ ma _ mb h)

end Scytale
