/-
  Scytale.Node.Journal — the journal of a passbook (apps/scytale-node/src/passbook.rs).

  The entries of the confirmed history come from the address index, those of the pending
  transactions from the pool; then all are put in order and numbered.
  - `journaled_iff`: the order is the documented one, with pending entries behind the confirmed
    ones, exactly when there are not both. The sort compares the optional heights first, and
    `None` comes before every `Some`.
-/
import Scytale.Node.Passbook

namespace Scytale

open Lib

/-! ## Entries -/

inductive PassbookAsset where
  | native
  | scy20 (tokenId : Hash256)
  deriving DecidableEq

inductive PassbookAction where
  | received
  | sent
  | miningReward
  | change
  | scy20Mint
  | scy20Transfer
  | scy20Burn
  | contractInteraction (datumHash : Option Hash256)
  | vaultDeposit (timelockUntil : UInt64)
  | vaultWithdrawal
  deriving DecidableEq

inductive EntryStatus where
  | confirmed (confirmations : UInt64)
  | pending
  | reorganized
  deriving DecidableEq

structure PassbookEntry where
  entryNumber : UInt64
  timestamp : UInt64
  asset : PassbookAsset
  action : PassbookAction
  amountQuanta : UInt64
  feeQuanta : UInt64
  status : EntryStatus
  txid : Hash256
  outpoint : Option OutPoint
  blockHeight : Option UInt64
  datumHash : Option Hash256
  deriving DecidableEq

namespace PassbookEntry

/-- `false` comes before `true`, and so a height before none. -/
def idx (e : PassbookEntry) : Bool × UInt64 :=
  match e.blockHeight with
  | some h => (false, h)
  | none => (true, 0)

/-- The comparison of the keys `(block_height, idx())`, part by part. `None` comes before
    `Some`. -/
def compareKeys (a b : PassbookEntry) : Ordering :=
  (compare a.blockHeight b.blockHeight).then ((compare a.idx.1 b.idx.1).then (compare a.idx.2 b.idx.2))

end PassbookEntry

/-- The sort is stable. -/
def assignEntryNumbers (entries : List PassbookEntry) : List PassbookEntry :=
  (entries.insertionSort fun a b => (a.compareKeys b).isLE = true).mapIdx fun i e =>
    { e with entryNumber := UInt64.ofNat (i + 1) }

/-! ## The confirmed history -/

section
variable (H : Hasher) (passbook : Passbook)

/-- What an output of the owner's is shown as, on what asset and with what amount and datum. The
    action of a standard output and of a token are the caller's. -/
def classifyOutput (out : TxOut) (standard token : PassbookAction) :
    PassbookAsset × PassbookAction × UInt64 × Option Hash256 :=
  match parseLockingCondition H out.lockingCondition with
  | .scy20 scy20 => (.scy20 scy20.tokenId, token, UInt64.ofNat scy20.amount.val, none)
  | .vault vault => (.native, .vaultDeposit vault.unlockTime, out.value, some (H (Fixint.vaultDatumBytes vault)))
  | .genericScript datumHash => (.native, .contractInteraction datumHash, out.value, datumHash)
  | .standard => (.native, standard, out.value, none)

/-- The outputs of the owner's with their indices. -/
def ownedOutputs (outputs : List TxOut) : List (Nat × TxOut) :=
  (outputs.zipIdx.map fun p => (p.2, p.1)).filter fun p => passbook.owns H p.2.lockingCondition

/-- The value of the output an input spends, if it is stored and the owner's. -/
def ownedInput (db : StorageEngine) (input : TxIn) : Option UInt64 :=
  match lookupTransaction db input.previousOutput.txid with
  | .ok (some prev) =>
    match prev.outputs[input.previousOutput.index.toNat]? with
    | some out => if passbook.owns H out.lockingCondition then some out.value else none
    | none => none
  | _ => none

/-- The entries of one stored transaction. Sums wrap around. -/
def confirmedEntries (db : StorageEngine) (tipHeight height timestamp : UInt64) (record : AddressTxRecord)
    (tx : Transaction) : List PassbookEntry :=
  let confirmations := UInt64.ofNat (min (tipHeight.toNat - height.toNat + 1) (2 ^ 64 - 1))
  let userOutputs := ownedOutputs H passbook tx.outputs
  let ownsInput := record.isInput || tx.inputs.any fun i => (ownedInput H passbook db i).isSome
  let totalOutput := match tx.totalOutputQuanta with
    | .ok total => total
    | .error _ => 0
  let userInputVal := if ownsInput then (tx.inputs.filterMap (ownedInput H passbook db)).sum else 0
  let fee := if ownsInput then UInt64.ofNat (userInputVal.toNat - totalOutput.toNat) else 0
  let entry := fun (kind : PassbookAsset × PassbookAction × UInt64 × Option Hash256) (outpoint : Option OutPoint) =>
    (⟨0, timestamp, kind.1, kind.2.1, kind.2.2.1, fee, .confirmed confirmations, record.txid, outpoint, some height,
      kind.2.2.2⟩ : PassbookEntry)
  if userOutputs.isEmpty && ownsInput then
    let amount := if record.valueQuanta > 0 then record.valueQuanta else userInputVal
    [entry (match record.tokenId with
      | some token => (.scy20 token, .scy20Transfer, amount, none)
      | none => (.native, .sent, amount, none)) none]
  else
    let standard := if tx.isCoinbase then .miningReward else if ownsInput then .change else .received
    let token := if tx.isCoinbase then .scy20Mint else .scy20Transfer
    userOutputs.map fun p => entry (classifyOutput H p.2 standard token) (some ⟨record.txid, UInt32.ofNat p.1⟩)

/-- The records of all addresses of the passbook, address after address. -/
def addressRecords (db : StorageEngine) (tipHeight : UInt64) : List Core.Address →
    Except PassbookError (List (UInt64 × AddressTxRecord))
  | [] => .ok []
  | address :: addresses =>
    match db.getAddressTransactionsWithHeight address.hash 0 tipHeight 100 with
    | .error e => .error (.storageError e)
    | .ok records =>
      match addressRecords db tipHeight addresses with
      | .error e => .error e
      | .ok rest => .ok (records ++ rest)

/-- The loop over the records; a transaction is shown once. -/
def projectRecords (db : StorageEngine) (tipHeight : UInt64) : List Hash256 → List (UInt64 × AddressTxRecord) →
    Except PassbookError (List PassbookEntry)
  | _, [] => .ok []
  | processed, (height, record) :: records =>
    if processed.contains record.txid then projectRecords db tipHeight processed records
    else
      let processed := record.txid :: processed
      match lookupTransaction db record.txid with
      | .error e => .error (.nodeError e)
      | .ok none => projectRecords db tipHeight processed records
      | .ok (some tx) =>
        match queryCanonicalRange db height 1 true with
        | .error e => .error (.nodeError e)
        | .ok blocks =>
          let timestamp := match blocks with
            | [] => 0
            | (block, _) :: _ => block.header.timestamp
          match projectRecords db tipHeight processed records with
          | .error e => .error e
          | .ok rest => .ok (confirmedEntries H passbook db tipHeight height timestamp record tx ++ rest)

def projectConfirmedHistoryViaIndex (db : StorageEngine) (tipHeight : UInt64) : Except PassbookError (List PassbookEntry) :=
  match addressRecords db tipHeight passbook.addresses with
  | .error e => .error e
  | .ok records => projectRecords H passbook db tipHeight [] (records.insertionSort fun a b => a.1 ≤ b.1)

/-! ## The pending transactions -/

def pendingEntries (confirmedUtxos : UtxoSet) (entry : MempoolEntry) : List PassbookEntry :=
  let tx := entry.transaction
  let ownsInput := tx.inputs.any fun i =>
    match confirmedUtxos.entries[i.previousOutput]? with
    | some spent => passbook.owns H spent.output.lockingCondition
    | none => false
  let userOutputs := ownedOutputs H passbook tx.outputs
  let shown := userOutputs.map fun p =>
    let kind := classifyOutput H p.2 (if ownsInput then .change else .received)
      (if ownsInput then .scy20Transfer else .scy20Mint)
    (⟨0, entry.addedTime, kind.1, kind.2.1, kind.2.2.1, entry.fee, .pending, entry.txid,
      some ⟨entry.txid, UInt32.ofNat p.1⟩, none, kind.2.2.2⟩ : PassbookEntry)
  if userOutputs.isEmpty && ownsInput then
    let totalOutput := match tx.totalOutputQuanta with
      | .ok total => total
      | .error _ => 0
    [⟨0, entry.addedTime, .native, .sent, UInt64.ofNat (min (entry.fee.toNat + totalOutput.toNat) (2 ^ 64 - 1)),
      entry.fee, .pending, entry.txid, none, none, none⟩]
  else shown

def projectPendingEntries (confirmedUtxos : UtxoSet) (pending : List MempoolEntry) : List PassbookEntry :=
  pending.flatMap (pendingEntries H passbook confirmedUtxos)

end

/-! ## A stable sort -/

section
variable {α : Type} {r : α → α → Prop} [DecidableRel r]

/-- Elements that count as equal keep their order. -/
theorem insertionSort_filter {p : α → Bool} (h : ∀ a b, p a = true → p b = true → r a b) (l : List α) :
    (l.insertionSort r).filter p = l.filter p := by
  have hsorted : (l.filter p).Pairwise r := by
    rw [List.pairwise_filter]
    exact List.pairwise_of_forall fun a b ha hb => h a b ha hb
  have hsub : (l.filter p).Sublist ((l.insertionSort r).filter p) := by
    have hfilter := (List.sublist_insertionSort (r := r) hsorted List.filter_sublist).filter p
    simpa only [List.filter_filter, Bool.and_self] using hfilter
  exact (hsub.eq_of_length ((List.perm_insertionSort r l).filter p).length_eq.symm).symm

end

/-! ## The order of the journal -/

/-- Entries come in the order of these. -/
def PassbookEntry.rank (e : PassbookEntry) : Nat :=
  match e.blockHeight with
  | none => 0
  | some h => h.toNat + 1

def PassbookEntry.unnumbered (e : PassbookEntry) : PassbookEntry := { e with entryNumber := 0 }

@[simp] theorem unnumbered_blockHeight (e : PassbookEntry) : e.unnumbered.blockHeight = e.blockHeight := rfl

/-- The documented order: the confirmed entries by height, behind them those without a height. -/
structure Journaled (entries numbered : List PassbookEntry) : Prop where
  confirmedFirst : numbered.Pairwise fun a b => a.blockHeight = none → b.blockHeight = none
  ascending : (numbered.filterMap (·.blockHeight)).Pairwise (· ≤ ·)
  stable : ∀ height, (numbered.filter (·.blockHeight = height)).map (·.unnumbered) =
    (entries.filter (·.blockHeight = height)).map (·.unnumbered)
  numbers : numbered.map (·.entryNumber) = (List.range' 1 entries.length).map UInt64.ofNat

theorem rank_eq_zero {e : PassbookEntry} : e.rank = 0 ↔ e.blockHeight = none := by
  unfold PassbookEntry.rank
  split <;> simp_all

theorem compare_height (m n : UInt64) :
    compare m n = if m.toNat < n.toNat then .lt else if m = n then .eq else .gt := by
  simp only [compare, compareOfLessAndEq, UInt64.lt_iff_toNat_lt]

/-- The second part of the key never decides: it orders by height what the first holds equal. -/
theorem compareKeys_isLE {a b : PassbookEntry} : (a.compareKeys b).isLE = true ↔ a.rank ≤ b.rank := by
  unfold PassbookEntry.compareKeys PassbookEntry.idx PassbookEntry.rank
  rcases ha : a.blockHeight with _ | m <;> rcases hb : b.blockHeight with _ | n
  · simp
  · have : compare none (some n) = Ordering.lt := rfl
    simp [this]
  · have : compare (some m) none = Ordering.gt := rfl
    simp [this]
  · have hsome : compare (some m) (some n) = compare m n := rfl
    simp only [hsome, compare_height]
    rcases Nat.lt_trichotomy m.toNat n.toNat with h | h | h
    · simp [h]
      omega
    · simp [UInt64.toNat_inj.mp h]
    · have hne : m ≠ n := fun heq => by subst heq; omega
      simp [hne, Nat.not_lt.mpr (Nat.le_of_lt h)]
      omega

theorem sorted_rank (entries : List PassbookEntry) :
    (entries.insertionSort fun a b => (a.compareKeys b).isLE = true).Pairwise fun a b => a.rank ≤ b.rank := by
  have : Std.Total fun a b : PassbookEntry => (a.compareKeys b).isLE = true :=
    ⟨fun a b => by simp only [compareKeys_isLE]; omega⟩
  have : IsTrans PassbookEntry fun a b => (a.compareKeys b).isLE = true :=
    ⟨fun a b c => by simp only [compareKeys_isLE]; omega⟩
  apply (List.pairwise_insertionSort _ entries).imp
  exact fun h => compareKeys_isLE.mp h

theorem assignEntryNumbers_map {β : Type} {f : PassbookEntry → β} (h : ∀ e n, f { e with entryNumber := n } = f e)
    (entries : List PassbookEntry) :
    (assignEntryNumbers entries).map f = (entries.insertionSort fun a b => (a.compareKeys b).isLE = true).map f := by
  apply List.ext_getElem
  · simp [assignEntryNumbers]
  · intro i _ _
    simp only [assignEntryNumbers, List.getElem_map, List.getElem_mapIdx, h]

/-- What the code's order is: the pending entries are in front. -/
theorem assignEntryNumbers_rank (entries : List PassbookEntry) :
    (assignEntryNumbers entries).Pairwise fun a b => a.rank ≤ b.rank := by
  rw [← List.pairwise_map (R := (· ≤ ·)), assignEntryNumbers_map (fun _ _ => rfl), List.pairwise_map]
  exact sorted_rank entries

theorem assignEntryNumbers_ascending (entries : List PassbookEntry) :
    ((assignEntryNumbers entries).filterMap (·.blockHeight)).Pairwise (· ≤ ·) := by
  rw [List.pairwise_filterMap]
  apply (assignEntryNumbers_rank entries).imp
  intro a b hrank m hm n hn
  simp only [PassbookEntry.rank, hm, hn] at hrank
  exact UInt64.le_iff_toNat_le.mpr (by omega)

theorem assignEntryNumbers_stable (entries : List PassbookEntry) (height : Option UInt64) :
    ((assignEntryNumbers entries).filter (·.blockHeight = height)).map (·.unnumbered) =
      (entries.filter (·.blockHeight = height)).map (·.unnumbered) := by
  have hmap : ∀ l : List PassbookEntry, (l.filter (·.blockHeight = height)).map (·.unnumbered) =
      (l.map (·.unnumbered)).filter (·.blockHeight = height) := by
    intro l
    rw [List.filter_map]
    rfl
  rw [hmap, assignEntryNumbers_map (fun _ _ => rfl), ← hmap, insertionSort_filter]
  intro a b ha hb
  simp only [decide_eq_true_eq] at ha hb
  rw [compareKeys_isLE]
  simp [PassbookEntry.rank, ha, hb]

theorem assignEntryNumbers_numbers (entries : List PassbookEntry) :
    (assignEntryNumbers entries).map (·.entryNumber) = (List.range' 1 entries.length).map UInt64.ofNat := by
  apply List.ext_getElem
  · simp [assignEntryNumbers]
  · intro i _ _
    simp [assignEntryNumbers, Nat.add_comm]

theorem mem_assignEntryNumbers_height {entries : List PassbookEntry} {height : Option UInt64} :
    (∃ e ∈ assignEntryNumbers entries, e.blockHeight = height) ↔ ∃ e ∈ entries, e.blockHeight = height := by
  have h : height ∈ (assignEntryNumbers entries).map (·.blockHeight) ↔ height ∈ entries.map (·.blockHeight) := by
    rw [assignEntryNumbers_map (fun _ _ => rfl)]
    exact ((List.perm_insertionSort _ entries).map _).mem_iff
  simpa only [List.mem_map] using h

/-- The sort compares the optional heights before it looks at `idx`, and `None` is below every
    `Some`: where there are entries of both kinds, the pending ones come first. -/
theorem journaled_iff (entries : List PassbookEntry) :
    Journaled entries (assignEntryNumbers entries) ↔
      ¬((∃ e ∈ entries, e.blockHeight = none) ∧ ∃ e ∈ entries, ∃ h, e.blockHeight = some h) := by
  constructor
  · rintro hjournaled ⟨hpending, e, he, h, hheight⟩
    obtain ⟨p, hp, hnone⟩ := mem_assignEntryNumbers_height.mpr hpending
    obtain ⟨c, hc, hsome⟩ := mem_assignEntryNumbers_height.mpr ⟨e, he, hheight⟩
    -- two neighbours in both orders are of one kind, so all entries are
    let kind : PassbookEntry → PassbookEntry → Prop := fun a b => a.blockHeight = none ↔ b.blockHeight = none
    have hkind : (assignEntryNumbers entries).Pairwise kind := by
      refine (hjournaled.confirmedFirst.and (assignEntryNumbers_rank entries)).imp ?_
      intro a b hab
      refine ⟨hab.1, fun hb => ?_⟩
      have := rank_eq_zero.mpr hb
      exact rank_eq_zero.mp (by omega)
    have : Std.Symm kind := ⟨fun _ _ => Iff.symm⟩
    have hsame : kind p c := hkind.forall_of_forall (R := kind) (fun _ _ => Iff.rfl) hp hc
    rw [hsame.mp hnone] at hsome
    exact absurd hsome (by simp)
  · intro hone
    refine ⟨?_, assignEntryNumbers_ascending entries, assignEntryNumbers_stable entries,
      assignEntryNumbers_numbers entries⟩
    apply List.pairwise_of_forall_mem_list
    intro a ha b hb hnone
    by_contra hsome
    obtain ⟨h, hheight⟩ := Option.ne_none_iff_exists'.mp hsome
    obtain ⟨e, he, hsome⟩ := mem_assignEntryNumbers_height.mp ⟨b, hb, hheight⟩
    exact hone ⟨mem_assignEntryNumbers_height.mp ⟨a, ha, hnone⟩, e, he, h, hsome⟩

/-- A confirmed entry of block 1 and a pending one: the pending one becomes number 1. -/
theorem pending_entry_numbered_first :
    let confirmed : PassbookEntry := ⟨0, 1700000000, .native, .received, 700, 0, .confirmed 1,
      ⟨List.replicate 32 1, by decide⟩, none, some 1, none⟩
    let pending : PassbookEntry := ⟨0, 1700000060, .native, .received, 800, 10, .pending,
      ⟨List.replicate 32 2, by decide⟩, none, none, none⟩
    assignEntryNumbers [confirmed, pending] =
        [{ pending with entryNumber := 1 }, { confirmed with entryNumber := 2 }] ∧
      ¬ Journaled [confirmed, pending] (assignEntryNumbers [confirmed, pending]) := by
  intro confirmed pending
  have hrun : assignEntryNumbers [confirmed, pending] =
      [{ pending with entryNumber := 1 }, { confirmed with entryNumber := 2 }] := by decide
  refine ⟨hrun, fun hjournaled => ?_⟩
  have hfirst := hjournaled.confirmedFirst
  rw [hrun, List.pairwise_pair] at hfirst
  exact absurd (hfirst rfl) (by simp [confirmed])

end Scytale
