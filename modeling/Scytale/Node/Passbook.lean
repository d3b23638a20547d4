/-
  Scytale.Node.Passbook — what a passbook says its owner has
  (apps/scytale-node/src/passbook.rs).

  Balances are summed over the unspent outputs in whatever order the hash map hands them out.
  - `addNatives_ok_iff`: a checked sum is the sum of what of each output is owned, whenever that
    fits; `sumNativeOwned_ok_iff`: so is the native balance.
  - `sumTokenOwned_shown`: a token's balance is the saturated sum of the low 64 bits of its
    amounts.
  - `sum_token_owned_iff`: which is that of the amounts when each fits in 64 bits, or when their
    low bits saturate already.
  - `datum_recognised_iff`: a token's datum is recognised; a vault's, which has the same size, is
    always taken for one.
-/
import Scytale.Contracts.Vault
import Scytale.Core.Address
import Scytale.Core.MerkleProof
import Scytale.Mempool.Pool
import Scytale.Node.Queries

namespace Scytale

open Lib

inductive PassbookError where
  | nodeNotReady (state : NodeState)
  | nodeError (e : ChainQueryError)
  | storageError (e : StorageError)
  | utxoLookupFailed (text : String)
  /-- `UtxoLookupFailed` with the text of the error. -/
  | proofFailed (e : CoreError)
  | transactionNotFound (txid : Hash256)
  | provenanceLineageBroken (outpoint : OutPoint)
  | staleLedgerState
  deriving DecidableEq

/-! ## Locking conditions -/

inductive ParsedContractCondition where
  | scy20 (datum : Scy20Datum)
  | vault (datum : VaultDatum)
  | genericScript (datumHash : Option Hash256)
  | standard
  deriving DecidableEq

section
variable (H : Hasher)

/-- A datum is taken for a token's if it decodes as one, and only then for a vault's. -/
def parseLockingCondition (script : Bytes) : ParsedContractCondition :=
  match OutputLock.fromLockingCondition script with
  | some (.publicKey _) => .standard
  | some (.script _ datum) =>
    match fixint.deserializeDatum datum with
    | some scy20 => .scy20 scy20
    | none =>
      match VaultDatum.decode datum with
      | some vault => .vault vault
      | none => .genericScript (if datum.isEmpty then none else some (H datum))
  | none => .standard

/-- Somebody's locking conditions, and the addresses they belong to. -/
structure Passbook where
  ownedLocks : List Bytes
  addresses : List Core.Address

/-- The entries of a set as its hash map hands them out: each once, in any order. -/
def UtxoSet.Visit (s : UtxoSet) : Type := { es : List UtxoEntry // es.Perm (s.entries.toList.map (·.2)) }

/-- In the order of the outpoints. -/
def UtxoSet.visit (s : UtxoSet) : s.Visit := ⟨_, List.Perm.refl _⟩

/-- A sum over what is visited does not see the order. -/
theorem UtxoSet.Visit.sum_eq {s : UtxoSet} (visit : s.Visit) (w : TxOut → Nat) :
    ((visit.1.map (·.output)).map w).sum = s.weight w := by
  rw [((visit.2.map _).map _).sum_eq, List.map_map, List.map_map]
  rfl

namespace Passbook

/-- The address of each lock, once. -/
def new (ownedLocks : List Bytes) : Passbook :=
  ⟨ownedLocks, (ownedLocks.filterMap (StorageEngine.extractAddressFromLockingCondition H)).foldl
    (fun addresses hash =>
      if addresses.contains (Core.Address.new hash) then addresses else addresses ++ [Core.Address.new hash]) []⟩

def owns (passbook : Passbook) (lockingCondition : Bytes) : Bool :=
  if passbook.ownedLocks.contains lockingCondition then true
  else match StorageEngine.extractAddressFromLockingCondition H lockingCondition with
    | some h => passbook.addresses.any fun a => a.hash == h
    | none => false

/-! ## Balances -/

/-- One output added to a sum of native quanta; `text` is what an overflow is reported as. -/
def addNative (passbook : Passbook) (text : String) (total : UInt64) (out : TxOut) : Except PassbookError UInt64 :=
  if passbook.owns H out.lockingCondition then
    match parseLockingCondition H out.lockingCondition with
    | .scy20 _ => .ok total
    | _ =>
      match checkedAdd total out.value with
      | none => .error (.utxoLookupFailed text)
      | some total => .ok total
  else .ok total

/-- The loop over outputs, with the sum so far. -/
def addNatives (passbook : Passbook) (text : String) : UInt64 → List TxOut → Except PassbookError UInt64
  | total, [] => .ok total
  | total, out :: outs =>
    match passbook.addNative H text total out with
    | .error e => .error e
    | .ok total => passbook.addNatives text total outs

def sumNativeOwned (passbook : Passbook) {utxos : UtxoSet} (visit : utxos.Visit) : Except PassbookError UInt64 :=
  passbook.addNatives H "balance overflow" 0 (visit.1.map (·.output))

/-- One output added to its token's balance. An amount is cut to 64 bits, a balance
    saturates. -/
def addToken (passbook : Passbook) (balances : Table Hash256 UInt64) (out : TxOut) : Table Hash256 UInt64 :=
  if passbook.owns H out.lockingCondition then
    match parseLockingCondition H out.lockingCondition with
    | .scy20 scy20 =>
      let current := (balances[scy20.tokenId]?).getD 0
      balances.insert scy20.tokenId
        ((checkedAdd current (UInt64.ofNat scy20.amount.val)).getD (UInt64.ofNat (2 ^ 64 - 1)))
    | _ => balances
  else balances

def sumTokenOwned (passbook : Passbook) {utxos : UtxoSet} (visit : utxos.Visit) : Table Hash256 UInt64 :=
  (visit.1.map (·.output)).foldl (passbook.addToken H) ∅

/-- The loop over the pending entries, with the inflow and the outflow so far. -/
def pendingFlows (passbook : Passbook) (confirmedUtxos : UtxoSet) :
    UInt64 → UInt64 → List MempoolEntry → Except PassbookError (UInt64 × UInt64)
  | inflow, outflow, [] => .ok (inflow, outflow)
  | inflow, outflow, entry :: pending =>
    match passbook.addNatives H "inflow overflow" inflow entry.transaction.outputs with
    | .error e => .error e
    | .ok inflow =>
      let spent := entry.transaction.inputs.filterMap fun input =>
        (confirmedUtxos.entries[input.previousOutput]?).map (·.output)
      match passbook.addNatives H "outflow overflow" outflow spent with
      | .error e => .error e
      | .ok outflow => passbook.pendingFlows confirmedUtxos inflow outflow pending

/-- The delta is an `i64`. -/
def pendingDelta (passbook : Passbook) (confirmedUtxos : UtxoSet) (pending : List MempoolEntry) : Except PassbookError Int :=
  match passbook.pendingFlows H confirmedUtxos 0 0 pending with
  | .error e => .error e
  | .ok (inflow, outflow) =>
    let delta := (inflow.toNat : Int) - outflow.toNat
    if delta > 2 ^ 63 - 1 ∨ delta < -2 ^ 63 then .error (.utxoLookupFailed "pending delta overflow") else .ok delta

end Passbook

end

/-! ## The two kinds of datum -/

/-- The data a contract's output is written with. -/
inductive ContractDatum where
  | scy20 (datum : Scy20Datum)
  | vault (datum : VaultDatum)
  deriving DecidableEq

namespace ContractDatum

/-- `bincode::serialize`. -/
def bytes : ContractDatum → Bytes
  | scy20 s => fixint.serializeDatum s
  | vault v => Fixint.vaultDatumBytes v

/-- What the datum is to be recognised as. -/
def condition : ContractDatum → ParsedContractCondition
  | scy20 s => .scy20 s
  | vault v => .vault v

/-- Both kinds take eighty bytes. -/
theorem bytes_length (d : ContractDatum) : d.bytes.length = 80 := by
  cases d with
  | scy20 s =>
    show (Fixint.datumBytes s).length = 80
    simp [Fixint.datumBytes, Fixint.u128le, Hash256.size]
  | vault v => simp [bytes, Fixint.vaultDatumBytes, Hash256.size]

end ContractDatum

/-- Any eighty bytes are those of a token's datum. -/
theorem exists_datumBytes {bs : Bytes} (h : bs.length = 80) : ∃ s, bs = Fixint.datumBytes s := by
  refine ⟨⟨⟨bs.take 32, by simp [h]⟩, ⟨(bs.drop 32).take 32, by simp [h]⟩, Fin.ofNat (2 ^ 128) (leNat (bs.drop 64))⟩, ?_⟩
  have hlast : (bs.drop 64).length = 16 := by simp [h]
  have hamount : Fixint.u128le (Fin.ofNat (2 ^ 128) (leNat (bs.drop 64))) = bs.drop 64 := by
    show leBytes 16 (leNat (bs.drop 64) % 2 ^ 128) = _
    rw [Nat.mod_eq_of_lt (show leNat (bs.drop 64) < 2 ^ 128 from leNat_lt hlast)]
    exact leBytes_of_length hlast
  have hmiddle : (bs.drop 32).take 32 ++ bs.drop 64 = bs.drop 32 := by
    rw [show bs.drop 64 = (bs.drop 32).drop 32 by rw [List.drop_drop], List.take_append_drop]
  show bs = bs.take 32 ++ (bs.drop 32).take 32 ++ Fixint.u128le _
  rw [hamount, List.append_assoc, hmiddle, List.take_append_drop]

/-- A script lock over eighty bytes is taken for a token's. -/
theorem parseLockingCondition_of_datumBytes (H : Hasher) {scriptHash : Bytes} (hhash : scriptHash.length = 32)
    (s : Scy20Datum) :
    parseLockingCondition H (OutputLock.script scriptHash (Fixint.datumBytes s)).toLockingCondition = .scy20 s := by
  have hsized : (OutputLock.script scriptHash (Fixint.datumBytes s)).Sized :=
    ⟨hhash, by rw [show (Fixint.datumBytes s).length = 80 from (ContractDatum.scy20 s).bytes_length]; decide⟩
  have hdecode : fixint.deserializeDatum (Fixint.datumBytes s) = some s := by
    have := fixint.datum_leads s []
    rwa [List.append_nil] at this
  rw [parseLockingCondition, OutputLock.fromLockingCondition_toLockingCondition hsized]
  simp only [hdecode]

/-- Under every script hash a datum is recognised for what it is exactly when it is a
    token's: the eighty bytes of a vault's datum are read as a token's first. -/
theorem datum_recognised_iff (H : Hasher) {scriptHash : Bytes} (hhash : scriptHash.length = 32) (d : ContractDatum) :
    parseLockingCondition H (OutputLock.script scriptHash d.bytes).toLockingCondition = d.condition ↔
      ∃ s, d = .scy20 s := by
  obtain ⟨s, hs⟩ := exists_datumBytes d.bytes_length
  rw [hs, parseLockingCondition_of_datumBytes H hhash]
  cases d with
  | scy20 s' =>
    have hsame : s = s' := by
      have := fixint.datum_leads s []
      have hbytes : fixint.serializeDatum s = fixint.serializeDatum s' := hs.symm
      rw [hbytes, fixint.datum_leads] at this
      exact (Option.some.inj this).symm
    simp [ContractDatum.condition, hsame]
  | vault v => simp [ContractDatum.condition]

/-- A token's datum under a script hash. -/
theorem datum_recognised_sample : parseLockingCondition Blake3.digest (OutputLock.script (List.replicate 32 9)
      (ContractDatum.scy20 ⟨sampleToken, sampleToken, 5⟩).bytes).toLockingCondition =
    (ContractDatum.scy20 ⟨sampleToken, sampleToken, 5⟩).condition :=
  (datum_recognised_iff Blake3.digest (by decide) (.scy20 ⟨sampleToken, sampleToken, 5⟩)).mpr ⟨_, rfl⟩

/-- A vault of 5000 quanta, and the set that has only it. -/
def sampleVaultLock : Bytes := (OutputLock.script (List.replicate 32 9) (ContractDatum.vault sampleVault).bytes).toLockingCondition

def vaultUtxos : UtxoSet := ⟨(∅ : Table OutPoint UtxoEntry).insert ⟨sampleToken, 0⟩ ⟨⟨5000, sampleVaultLock⟩, 1, false⟩⟩

set_option maxRecDepth 10000 in
/-- It is no vault to its owner's passbook, and its quanta are not in the balance: there is an
    amount of a token whose identifier is the owner's key. -/
theorem vault_taken_for_token : let book := Passbook.new Blake3.digest [sampleVaultLock]
    parseLockingCondition Blake3.digest sampleVaultLock ≠ .vault sampleVault ∧
      book.owns Blake3.digest sampleVaultLock = true ∧ book.sumNativeOwned Blake3.digest vaultUtxos.visit = .ok 0 ∧
      0 < ((book.sumTokenOwned Blake3.digest vaultUtxos.visit)[aliceKey]?).getD 0 := by decide +kernel

namespace Passbook

variable {H : Hasher} {p : Passbook}

/-! ## What of an output is owned -/

section
variable (H) (p)

/-- The native quanta of an output that are the owner's. -/
def nativeWeight (out : TxOut) : Nat :=
  if p.owns H out.lockingCondition then
    match parseLockingCondition H out.lockingCondition with
    | .scy20 _ => 0
    | _ => out.value.toNat
  else 0

/-- What of a token is. -/
def tokenAmount (tokenId : TokenId) (out : TxOut) : Nat :=
  if p.owns H out.lockingCondition then
    match parseLockingCondition H out.lockingCondition with
    | .scy20 scy20 => if scy20.tokenId = tokenId then scy20.amount.val else 0
    | _ => 0
  else 0

end

theorem addNative_ok_iff {text : String} {total r : UInt64} {out : TxOut} :
    p.addNative H text total out = .ok r ↔ r.toNat = total.toNat + p.nativeWeight H out := by
  have hkeep : (Except.ok total : Except PassbookError UInt64) = .ok r ↔ r.toNat = total.toNat + 0 := by
    rw [Except.ok.injEq, Nat.add_zero, UInt64.toNat_inj, eq_comm]
  have hadd : (match checkedAdd total out.value with
      | none => .error (.utxoLookupFailed text)
      | some total => .ok total : Except PassbookError UInt64) = .ok r ↔ r.toNat = total.toNat + out.value.toNat := by
    rw [← checkedAdd_eq_some_iff]
    cases checkedAdd total out.value <;> simp
  unfold addNative nativeWeight
  by_cases howned : p.owns H out.lockingCondition = true
  · rw [if_pos howned, if_pos howned]
    cases parseLockingCondition H out.lockingCondition with
    | scy20 _ => exact hkeep
    | vault _ => exact hadd
    | genericScript _ => exact hadd
    | standard => exact hadd
  · rw [if_neg howned, if_neg howned]
    exact hkeep

/-- A checked sum succeeds exactly with the sum of what is owned. -/
theorem addNatives_ok_iff {text : String} {outs : List TxOut} : ∀ {total r : UInt64},
    p.addNatives H text total outs = .ok r ↔ r.toNat = total.toNat + (outs.map (p.nativeWeight H)).sum := by
  induction outs with
  | nil =>
    intro total r
    rw [addNatives, Except.ok.injEq, List.map_nil, List.sum_nil, Nat.add_zero, UInt64.toNat_inj, eq_comm]
  | cons out outs ih =>
    intro total r
    rw [addNatives, List.map_cons, List.sum_cons]
    constructor
    · intro h
      cases hout : p.addNative H text total out with
      | error e =>
        rw [hout] at h
        cases h
      | ok total' =>
        rw [hout] at h
        have hfirst := addNative_ok_iff.mp hout
        have hrest := ih.mp h
        omega
    · intro h
      have hlt : total.toNat + p.nativeWeight H out < 2 ^ 64 := by
        have := r.toNat_lt
        omega
      have hround : (UInt64.ofNat (total.toNat + p.nativeWeight H out)).toNat = total.toNat + p.nativeWeight H out := by
        rw [UInt64.toNat_ofNat']
        exact Nat.mod_eq_of_lt hlt
      rw [addNative_ok_iff.mpr hround]
      exact ih.mpr (by omega)

/-- The balance is what of the set is owned, whenever that fits in 64 bits. -/
theorem sumNativeOwned_ok_iff {utxos : UtxoSet} {visit : utxos.Visit} {r : UInt64} :
    p.sumNativeOwned H visit = .ok r ↔ r.toNat = utxos.weight (p.nativeWeight H) := by
  have h0 : (0 : UInt64).toNat = 0 := rfl
  rw [sumNativeOwned, addNatives_ok_iff, visit.sum_eq, h0, Nat.zero_add]

/-! ## Token balances -/

/-- One output adds its low bits, and the sum saturates. -/
theorem saturated_add (current amount : UInt64) :
    ((checkedAdd current amount).getD (UInt64.ofNat (2 ^ 64 - 1))).toNat = min (current.toNat + amount.toNat) (2 ^ 64 - 1) := by
  by_cases h : current.toNat + amount.toNat < 2 ^ 64
  · rw [checkedAdd_of_lt h, Option.getD_some, UInt64.toNat_add, Nat.mod_eq_of_lt h]
    omega
  · rw [checkedAdd, if_neg h, Option.getD_none]
    have hmax : (UInt64.ofNat (2 ^ 64 - 1)).toNat = 2 ^ 64 - 1 := rfl
    omega

/-- What is shown of a token. -/
def shown (balances : Table Hash256 UInt64) (tokenId : TokenId) : UInt64 := (balances[tokenId]?).getD 0

theorem addToken_shown (balances : Table Hash256 UInt64) (out : TxOut) (tokenId : TokenId) :
    (shown (p.addToken H balances out) tokenId).toNat =
      min ((shown balances tokenId).toNat + p.tokenAmount H tokenId out % 2 ^ 64) (2 ^ 64 - 1) := by
  have hkeep : (shown balances tokenId).toNat = min ((shown balances tokenId).toNat + 0 % 2 ^ 64) (2 ^ 64 - 1) := by
    have := (shown balances tokenId).toNat_lt
    omega
  unfold addToken tokenAmount
  by_cases howned : p.owns H out.lockingCondition = true
  · rw [if_pos howned, if_pos howned]
    cases parseLockingCondition H out.lockingCondition with
    | scy20 scy20 =>
      by_cases htoken : scy20.tokenId = tokenId
      · subst htoken
        simp only [if_true, shown, Table.get_insert_self, Option.getD_some]
        rw [saturated_add, UInt64.toNat_ofNat']
      · simp only [shown, if_neg htoken]
        rw [Table.get_insert_ne _ _ htoken]
        exact hkeep
    | vault _ => exact hkeep
    | genericScript _ => exact hkeep
    | standard => exact hkeep
  · rw [if_neg howned, if_neg howned]
    exact hkeep

theorem addTokens_shown (tokenId : TokenId) {outs : List TxOut} : ∀ balances : Table Hash256 UInt64,
    (shown (outs.foldl (p.addToken H) balances) tokenId).toNat =
      min ((shown balances tokenId).toNat + (outs.map fun out => p.tokenAmount H tokenId out % 2 ^ 64).sum) (2 ^ 64 - 1) := by
  induction outs with
  | nil =>
    intro balances
    have := (shown balances tokenId).toNat_lt
    simp only [List.foldl_nil, List.map_nil, List.sum_nil, Nat.add_zero]
    omega
  | cons out outs ih =>
    intro balances
    rw [List.foldl_cons, ih, addToken_shown, List.map_cons, List.sum_cons]
    omega

/-- In whatever order the set is visited. -/
theorem sumTokenOwned_shown {utxos : UtxoSet} (visit : utxos.Visit) (tokenId : TokenId) :
    (shown (p.sumTokenOwned H visit) tokenId).toNat =
      min (utxos.weight fun out => p.tokenAmount H tokenId out % 2 ^ 64) (2 ^ 64 - 1) := by
  have h0 : (shown ∅ tokenId).toNat = 0 := by simp [shown]
  rw [sumTokenOwned, addTokens_shown, h0, Nat.zero_add, visit.sum_eq]

/-- What is owned by one book in one set, another owns in another. -/
def OwnedWithin (H : Hasher) (p : Passbook) (utxos : UtxoSet) (p' : Passbook) (utxos' : UtxoSet) : Prop :=
  ∀ (o : OutPoint) (e : UtxoEntry), utxos.entries[o]? = some e → p.owns H e.output.lockingCondition = true →
    utxos'.entries[o]? = some e ∧ p'.owns H e.output.lockingCondition = true

theorem OwnedWithin.weight_le {p' : Passbook} {utxos utxos' : UtxoSet} (h : OwnedWithin H p utxos p' utxos')
    (tokenId : TokenId) : (utxos.weight fun out => p.tokenAmount H tokenId out % 2 ^ 64) ≤
      utxos'.weight fun out => p'.tokenAmount H tokenId out % 2 ^ 64 := by
  refine Table.sumBy_le_of_mem fun o e he hne => ?_
  have howned : p.owns H e.output.lockingCondition = true := by
    by_contra hnot
    have hzero : p.tokenAmount H tokenId e.output = 0 := if_neg hnot
    exact hne (congrArg (· % 2 ^ 64) hzero)
  obtain ⟨he', howned'⟩ := h o e he howned
  have hsame : p.tokenAmount H tokenId e.output = p'.tokenAmount H tokenId e.output := by
    rw [tokenAmount, tokenAmount, if_pos howned, if_pos howned']
  exact ⟨he', Nat.le_of_eq (congrArg (· % 2 ^ 64) hsame)⟩

/-- For every book, set and token: what is shown is the saturated sum of the owned amounts
    exactly when each fits in 64 bits, or when their low 64 bits saturate already. And it never
    falls when more is owned. -/
theorem sum_token_owned_iff (H : Hasher) (p : Passbook) {utxos : UtxoSet} (visit : utxos.Visit) (tokenId : TokenId) :
    ((shown (p.sumTokenOwned H visit) tokenId).toNat = min (utxos.weight (p.tokenAmount H tokenId)) (2 ^ 64 - 1) ↔
      (∀ (o : OutPoint) (e : UtxoEntry), utxos.entries[o]? = some e → p.tokenAmount H tokenId e.output < 2 ^ 64) ∨
        2 ^ 64 - 1 ≤ utxos.weight fun out => p.tokenAmount H tokenId out % 2 ^ 64) ∧
      ∀ (p' : Passbook) (utxos' : UtxoSet) (visit' : utxos'.Visit), OwnedWithin H p utxos p' utxos' →
        (shown (p.sumTokenOwned H visit) tokenId).toNat ≤ (shown (p'.sumTokenOwned H visit') tokenId).toNat := by
  have hle : (utxos.weight fun out => p.tokenAmount H tokenId out % 2 ^ 64) ≤ utxos.weight (p.tokenAmount H tokenId) :=
    Table.sumBy_mod_le (fun e : UtxoEntry => p.tokenAmount H tokenId e.output) _ _
  have heq : (utxos.weight fun out => p.tokenAmount H tokenId out % 2 ^ 64) = utxos.weight (p.tokenAmount H tokenId) ↔
      ∀ (o : OutPoint) (e : UtxoEntry), utxos.entries[o]? = some e → p.tokenAmount H tokenId e.output < 2 ^ 64 :=
    Table.sumBy_mod_eq_iff (fun e : UtxoEntry => p.tokenAmount H tokenId e.output) (by decide) _
  constructor
  · rw [sumTokenOwned_shown, ← heq]
    omega
  · intro p' utxos' visit' hwithin
    have := hwithin.weight_le tokenId
    rw [sumTokenOwned_shown, sumTokenOwned_shown]
    omega

theorem wideAmount_lt : 2 ^ 64 < 2 ^ 128 := by decide

/-- An owned output of exactly `2 ^ 64` of a token. -/
def wideToken : Bytes :=
  (OutputLock.script (List.replicate 32 9)
    (fixint.serializeDatum ⟨sampleToken, sampleToken, ⟨2 ^ 64, wideAmount_lt⟩⟩)).toLockingCondition

def wideUtxos : UtxoSet := ⟨(∅ : Table OutPoint UtxoEntry).insert ⟨sampleToken, 0⟩ ⟨⟨1, wideToken⟩, 1, false⟩⟩

set_option maxRecDepth 10000 in
/-- Of `2 ^ 64` nothing is shown. -/
theorem wide_amount_shown_as_nothing : let book := Passbook.new Blake3.digest [wideToken]
    wideUtxos.weight (book.tokenAmount Blake3.digest sampleToken) = 2 ^ 64 ∧
      shown (book.sumTokenOwned Blake3.digest wideUtxos.visit) sampleToken = 0 := by decide +kernel

end Passbook

end Scytale
