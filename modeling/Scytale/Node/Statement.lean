/-
  Scytale.Node.Statement — statements of what an account has (apps/scytale-node/src/passbook.rs).

  A statement lists proofs of unspent outputs and a balance, and is checked offline against the
  root it carries: each proof verifies, and their values sum to the balance.
  - `verifyIntegrity_iff`: that is what the check says.
  - `statement_sound_iff`: when the proofs of a root name given outputs, no accepted balance is
    above what the set has for them, exactly when the names allow no more. An output may be
    named twice, and one named without its locking condition has any value.
  - `generated_statement_iff`: the statement generated for an address is accepted exactly when
    that address has every native output of the whole passbook, whose balance it carries.
-/
import Scytale.Node.Journal
import Scytale.Node.Run

namespace Scytale

open Lib

structure PassbookStatement where
  account : Core.Address
  generatedAtHeight : UInt64
  blockHash : Hash256
  utxoRoot : Hash256
  confirmedNativeBalanceQuanta : UInt64
  tokenBalances : Table Hash256 UInt64
  entries : List PassbookEntry
  activeUtxoProofs : List UtxoMerkleProof

namespace PassbookStatement

section
variable (H : Hasher)

/-- The loop over the proofs, with the sum so far. -/
def sumProofs (utxoRoot : Hash256) : UInt64 → List UtxoMerkleProof → Option UInt64
  | sum, [] => some sum
  | sum, proof :: proofs =>
    if !proof.verify H utxoRoot then none
    else match checkedAdd sum proof.valueQuanta with
      | none => none
      | some sum => sumProofs utxoRoot sum proofs

def verifyIntegrity (st : PassbookStatement) : Bool :=
  match sumProofs H st.utxoRoot 0 st.activeUtxoProofs with
  | none => false
  | some sum => sum == st.confirmedNativeBalanceQuanta

end

variable {H : Hasher}

/-- What the proofs claim in all. -/
def claimed (proofs : List UtxoMerkleProof) : Nat := (proofs.map fun p => p.valueQuanta.toNat).sum

theorem sumProofs_eq_some {root : Hash256} {proofs : List UtxoMerkleProof} : ∀ {sum r : UInt64},
    sumProofs H root sum proofs = some r ↔
      (∀ p ∈ proofs, p.verify H root = true) ∧ r.toNat = sum.toNat + claimed proofs := by
  induction proofs with
  | nil =>
    intro sum r
    rw [sumProofs, Option.some.injEq, eq_comm, ← UInt64.toNat_inj]
    simp [claimed]
  | cons p proofs ih =>
    intro sum r
    have hclaimed : claimed (p :: proofs) = p.valueQuanta.toNat + claimed proofs := List.sum_cons
    rw [sumProofs, hclaimed]
    by_cases hp : p.verify H root = true
    · simp only [hp, Bool.not_true, Bool.false_eq_true, if_false, List.forall_mem_cons, true_and]
      constructor
      · intro h
        cases hadd : checkedAdd sum p.valueQuanta with
        | none =>
          rw [hadd] at h
          cases h
        | some next =>
          rw [hadd] at h
          obtain ⟨hrest, hr⟩ := ih.mp h
          have := checkedAdd_eq_some hadd
          exact ⟨hrest, by omega⟩
      · rintro ⟨hrest, hr⟩
        have hlt : sum.toNat + p.valueQuanta.toNat < 2 ^ 64 := by
          have := r.toNat_lt
          omega
        have hnext := checkedAdd_eq_some (checkedAdd_of_lt hlt)
        rw [checkedAdd_of_lt hlt]
        exact ih.mpr ⟨hrest, by omega⟩
    · simp [hp]

/-- Each proof verifies, and their values sum to the balance. -/
theorem verifyIntegrity_iff {st : PassbookStatement} : st.verifyIntegrity H = true ↔
    (∀ p ∈ st.activeUtxoProofs, p.verify H st.utxoRoot = true) ∧
      st.confirmedNativeBalanceQuanta.toNat = claimed st.activeUtxoProofs := by
  have h0 : (0 : UInt64).toNat = 0 := rfl
  rw [← Nat.zero_add (claimed _), ← h0, ← sumProofs_eq_some, verifyIntegrity]
  cases sumProofs H st.utxoRoot 0 st.activeUtxoProofs <;> simp

end PassbookStatement

/-! ## Sums over names -/

/-- Naming some things twice adds nothing exactly when the weightless ones are the only such. -/
theorem sum_dedup {α : Type} [DecidableEq α] (f : α → Nat) (l : List α) :
    (l.dedup.map f).sum ≤ (l.map f).sum ∧
      ((l.map f).sum ≤ (l.dedup.map f).sum ↔ (l.filter fun a => f a ≠ 0).Nodup) := by
  induction l with
  | nil => simp
  | cons a l ih =>
    obtain ⟨hle, hiff⟩ := ih
    rw [List.map_cons, List.sum_cons]
    by_cases hmem : a ∈ l
    · rw [List.dedup_cons_of_mem hmem]
      refine ⟨by omega, ?_⟩
      by_cases h0 : f a = 0
      · simpa [h0] using hiff
      · have : ¬ (f a + (l.map f).sum ≤ (l.dedup.map f).sum) := by omega
        simp [h0, hmem, this]
    · rw [List.dedup_cons_of_notMem hmem, List.map_cons, List.sum_cons]
      refine ⟨by omega, ?_⟩
      rw [Nat.add_le_add_iff_left, hiff]
      by_cases h0 : f a = 0
      · simp [h0]
      · simp [h0, hmem]

namespace UtxoSet

variable (s : UtxoSet)

/-- What the set has at an outpoint. -/
def valueAt (o : OutPoint) : Nat := ((s.entries[o]?).map fun e => e.output.value.toNat).getD 0

/-- The set has an output there, with the locking condition. -/
def HasLock (name : OutPoint × Bytes) : Prop :=
  (s.entries[name.1]?).map (fun e => e.output.lockingCondition) = some name.2

instance (name : OutPoint × Bytes) : Decidable (s.HasLock name) := inferInstanceAs (Decidable (_ = _))

/-- The value of the named outputs, each counted once. -/
def distinctValue (names : List (OutPoint × Bytes)) : Nat := ((names.map (·.1)).dedup.map s.valueAt).sum

/-- The value of those named with a locking condition, counted as often as they are named. -/
def lockedValue (names : List (OutPoint × Bytes)) : Nat :=
  ((names.filter fun n => n.2 ≠ []).map fun n => s.valueAt n.1).sum

variable {s} {H : Hasher}

theorem valueAt_of_holds {p : UtxoMerkleProof} (h : p.Holds s) : s.valueAt p.outpoint = p.valueQuanta.toNat := by
  obtain ⟨e, he, hout⟩ := Option.map_eq_some_iff.mp h
  rw [valueAt, he, Option.map_some, hout]
  rfl

theorem hasLock_of_holds {p : UtxoMerkleProof} (h : p.Holds s) : s.HasLock (p.outpoint, p.lockingCondition) := by
  obtain ⟨e, he, hout⟩ := Option.map_eq_some_iff.mp h
  rw [HasLock, he, Option.map_some, hout]
  rfl

theorem lockedValue_cons (n : OutPoint × Bytes) (names : List (OutPoint × Bytes)) :
    s.lockedValue (n :: names) = (if n.2 ≠ [] then s.valueAt n.1 else 0) + s.lockedValue names := by
  by_cases h : n.2 = []
  · simp [lockedValue, h]
  · simp [lockedValue, h]

end UtxoSet

namespace PassbookStatement

variable {H : Hasher} {s : UtxoSet}

/-- What a proof names. -/
def name (p : UtxoMerkleProof) : OutPoint × Bytes := (p.outpoint, p.lockingCondition)

/-- What is assumed of the digest on the strings of the proofs with a locking condition. -/
def Apart (H : Hasher) (s : UtxoSet) (proofs : List UtxoMerkleProof) : Prop :=
  ∀ p ∈ proofs, p.lockingCondition ≠ [] → p.Apart H s

instance (H : Hasher) (s : UtxoSet) (proofs : List UtxoMerkleProof) : Decidable (Apart H s proofs) :=
  inferInstanceAs (Decidable (∀ p ∈ proofs, p.lockingCondition ≠ [] → p.Apart H s))

/-! ## What verified proofs claim -/

/-- Proofs with a locking condition claim what the set has; the others claim on top of it. -/
theorem claimed_sound {proofs : List UtxoMerkleProof} (hapart : Apart H s proofs)
    (hv : ∀ p ∈ proofs, p.verify H (s.computeUtxoRoot H) = true) :
    (∀ n ∈ proofs.map name, n.2 ≠ [] → s.HasLock n) ∧ s.lockedValue (proofs.map name) ≤ claimed proofs ∧
      ((∀ n ∈ proofs.map name, n.2 ≠ []) → claimed proofs = s.lockedValue (proofs.map name)) := by
  induction proofs with
  | nil => simp [UtxoSet.lockedValue, claimed]
  | cons p proofs ih =>
    obtain ⟨hhas, hle, heq⟩ := ih (fun q hq => hapart q (List.mem_cons_of_mem _ hq))
      fun q hq => hv q (List.mem_cons_of_mem _ hq)
    have hclaimed : claimed (p :: proofs) = p.valueQuanta.toNat + claimed proofs := List.sum_cons
    rw [List.map_cons, UtxoSet.lockedValue_cons, hclaimed]
    simp only [List.forall_mem_cons]
    by_cases hlock : p.lockingCondition = []
    · have hname : (name p).2 = [] := hlock
      refine ⟨⟨fun h => absurd hname h, hhas⟩, ?_, fun h => absurd hname h.1⟩
      rw [if_neg (not_not.mpr hname)]
      omega
    · have hname : (name p).2 ≠ [] := hlock
      have hholds := UtxoMerkleProof.verify_sound (hapart p List.mem_cons_self hlock) hlock (hv p List.mem_cons_self)
      have hvalue : s.valueAt (name p).1 = p.valueQuanta.toNat := UtxoSet.valueAt_of_holds hholds
      rw [if_pos hname, hvalue]
      refine ⟨⟨fun _ => UtxoSet.hasLock_of_holds hholds, hhas⟩, by omega, fun h => ?_⟩
      rw [heq h.2]

/-- Proofs that claim the most: what the set has for each name with a locking condition, and
    `spare` for the first without. -/
theorem exists_proofs (hs : UtxoSet.Apart H (UtxoSet.leafStrings s.rows) (UtxoSet.nodeStrings H s.rows))
    (names : List (OutPoint × Bytes)) (hhas : ∀ n ∈ names, n.2 ≠ [] → s.HasLock n) : ∀ spare : UInt64,
    ∃ proofs : List UtxoMerkleProof, proofs.map name = names ∧ Apart H s proofs ∧
      (∀ p ∈ proofs, p.verify H (s.computeUtxoRoot H) = true) ∧
      claimed proofs = s.lockedValue names + if ∃ n ∈ names, n.2 = [] then spare.toNat else 0 := by
  induction names with
  | nil => exact fun _ => ⟨[], rfl, by simp [Apart], by simp, by simp [claimed, UtxoSet.lockedValue]⟩
  | cons n names ih =>
    obtain ⟨o, lock⟩ := n
    intro spare
    obtain ⟨hfirst, hrest⟩ := List.forall_mem_cons.mp hhas
    by_cases hlock : lock = []
    · subst hlock
      obtain ⟨proofs, hnames, hapart, hv, hsum⟩ := ih hrest 0
      refine ⟨⟨o, spare, [], s.computeUtxoRoot H, [], 0⟩ :: proofs, by rw [List.map_cons, hnames]; rfl, ?_, ?_, ?_⟩
      · intro p hp
        rcases List.mem_cons.mp hp with rfl | hp
        · exact fun h => absurd rfl h
        · exact hapart p hp
      · intro p hp
        rcases List.mem_cons.mp hp with rfl | hp
        · simp [UtxoMerkleProof.verify]
        · exact hv p hp
      · have hzero : (if ∃ n ∈ names, n.2 = [] then (0 : UInt64).toNat else 0) = 0 := by split <;> rfl
        have hclaimed : claimed (⟨o, spare, [], s.computeUtxoRoot H, [], 0⟩ :: proofs) = spare.toNat + claimed proofs :=
          List.sum_cons
        rw [hclaimed, hsum, hzero, UtxoSet.lockedValue_cons, if_neg (by simp), if_pos ⟨_, List.mem_cons_self, rfl⟩]
        omega
    · obtain ⟨proofs, hnames, hapart, hv, hsum⟩ := ih hrest spare
      obtain ⟨e, he, rfl⟩ := Option.map_eq_some_iff.mp (hfirst hlock)
      obtain ⟨path, i, -, hclimb, hmem⟩ := generate_ok (H := H) s (List.Perm.refl _) he
      refine ⟨⟨o, e.output.value, e.output.lockingCondition, UtxoSet.computeUtxoLeaf H o e.output, path, i⟩ :: proofs,
        by rw [List.map_cons, hnames]; rfl, ?_, ?_, ?_⟩
      · intro p hp
        rcases List.mem_cons.mp hp with rfl | hp
        · -- its strings are those of the set's own tree
          refine fun _ => UtxoSet.Apart.mono hs (fun a ha => ?_) fun a ha => ?_
          · rcases List.mem_cons.mp ha with rfl | ha
            · exact UtxoSet.mem_leafStrings (UtxoSet.mem_rows.mpr (by rw [he]; rfl))
            · exact ha
          · rcases List.mem_append.mp ha with ha | ha
            · exact ha
            · obtain ⟨q, hq, rfl⟩ := List.mem_map.mp ha
              exact UtxoSet.mem_nodeStrings (hmem q hq)
        · exact hapart p hp
      · intro p hp
        rcases List.mem_cons.mp hp with rfl | hp
        · exact verify_own_leaf.mpr hclimb
        · exact hv p hp
      · have hvalue : s.valueAt o = e.output.value.toNat := by
          rw [UtxoSet.valueAt, he]
          rfl
        have hclaimed : claimed (⟨o, e.output.value, e.output.lockingCondition, UtxoSet.computeUtxoLeaf H o e.output, path,
          i⟩ :: proofs) = e.output.value.toNat + claimed proofs := List.sum_cons
        rw [hclaimed, hsum, UtxoSet.lockedValue_cons, if_pos hlock, hvalue]
        simp only [List.exists_mem_cons_iff, hlock, false_or]
        omega

/-! ## Soundness -/

theorem lockedValue_of_locked {names : List (OutPoint × Bytes)} (h : ∀ n ∈ names, n.2 ≠ []) :
    s.lockedValue names = ((names.map (·.1)).map s.valueAt).sum := by
  rw [UtxoSet.lockedValue, List.filter_eq_self.mpr (by simpa using h), List.map_map]
  rfl

/-- For every set and every list of named outputs: no statement that names these, against the
    set's root, is accepted with more than the set has for them, exactly when the set has not
    all that are named with a locking condition; or has so much that the sum overflows; or so
    much that no balance is above it; or when every name has its locking condition and none
    that counts is named twice. -/
theorem statement_sound_iff (s : UtxoSet) (hs : UtxoSet.Apart H (UtxoSet.leafStrings s.rows) (UtxoSet.nodeStrings H s.rows))
    (names : List (OutPoint × Bytes)) :
    (∀ st : PassbookStatement, st.utxoRoot = s.computeUtxoRoot H → st.activeUtxoProofs.map name = names →
      Apart H s st.activeUtxoProofs → st.verifyIntegrity H = true →
      st.confirmedNativeBalanceQuanta.toNat ≤ s.distinctValue names) ↔
    (∃ n ∈ names, n.2 ≠ [] ∧ ¬ s.HasLock n) ∨ 2 ^ 64 ≤ s.lockedValue names ∨ 2 ^ 64 - 1 ≤ s.distinctValue names ∨
      ((∀ n ∈ names, n.2 ≠ []) ∧ ((names.map (·.1)).filter fun o => s.valueAt o ≠ 0).Nodup) := by
  have hdedup := sum_dedup s.valueAt (names.map (·.1))
  constructor
  · intro hall
    by_contra hnot
    simp only [not_or, not_exists, not_and, not_not, Nat.not_le] at hnot
    obtain ⟨hhas, hfits, hroom, hdouble⟩ := hnot
    have hspare : (UInt64.ofNat (2 ^ 64 - 1 - s.lockedValue names)).toNat = 2 ^ 64 - 1 - s.lockedValue names := by
      rw [UInt64.toNat_ofNat']
      exact Nat.mod_eq_of_lt (by omega)
    obtain ⟨proofs, hnames, hapart, hv, hsum⟩ := exists_proofs hs names hhas (UInt64.ofNat (2 ^ 64 - 1 - s.lockedValue names))
    have hbalance : (UInt64.ofNat (claimed proofs)).toNat = claimed proofs := by
      rw [UInt64.toNat_ofNat']
      refine Nat.mod_eq_of_lt ?_
      rw [hsum, hspare]
      split <;> omega
    have hbad := hall ⟨Core.Address.new [], 0, Hash256.zero, s.computeUtxoRoot H, UInt64.ofNat (claimed proofs), ∅, [], proofs⟩
      rfl hnames hapart (verifyIntegrity_iff.mpr ⟨hv, hbalance⟩)
    rw [hbalance, hsum, hspare] at hbad
    by_cases hempty : ∃ n ∈ names, n.2 = []
    · rw [if_pos hempty] at hbad
      omega
    · rw [if_neg hempty, Nat.add_zero] at hbad
      have hlocked : ∀ n ∈ names, n.2 ≠ [] := fun n hn h => hempty ⟨n, hn, h⟩
      rw [lockedValue_of_locked hlocked] at hbad
      exact hdouble hlocked (hdedup.2.mp hbad)
  · intro hcond st hroot hnames hapart hst
    obtain ⟨hv, hbalance⟩ := verifyIntegrity_iff.mp hst
    rw [hroot] at hv
    obtain ⟨hhas, hle, heq⟩ := claimed_sound hapart hv
    rw [hnames] at hhas hle heq
    have hlt := st.confirmedNativeBalanceQuanta.toNat_lt
    rcases hcond with ⟨n, hn, hlock, hmissing⟩ | hover | hfull | ⟨hlocked, honce⟩
    · exact absurd (hhas n hn hlock) hmissing
    · omega
    · omega
    · rw [hbalance, heq hlocked, lockedValue_of_locked hlocked]
      exact hdedup.2.mpr honce

set_option maxRecDepth 10000 in
/-- Two outputs, each named once. -/
theorem statement_sound_two : let H := Blake3.digest
    let s := UtxoSet.threeOutputs 1 true
    let names : List (OutPoint × Bytes) := [(⟨Hash256.zero, 0⟩, [0x51]), (⟨Hash256.zero, 1⟩, [0x51])]
    s.distinctValue names = 1500 ∧ ∀ st : PassbookStatement, st.utxoRoot = s.computeUtxoRoot H →
      st.activeUtxoProofs.map name = names → Apart H s st.activeUtxoProofs → st.verifyIntegrity H = true →
      st.confirmedNativeBalanceQuanta.toNat ≤ s.distinctValue names :=
  ⟨by decide +kernel, (statement_sound_iff (H := Blake3.digest) (UtxoSet.threeOutputs 1 true) (by decide +kernel)
    [(⟨Hash256.zero, 0⟩, [0x51]), (⟨Hash256.zero, 1⟩, [0x51])]).mpr (by decide +kernel)⟩

/-- The proof of an output of 700 quanta. -/
def firstProof : UtxoMerkleProof :=
  (generateUtxoMerkleProof Blake3.digest (UtxoSet.threeOutputs 1 true).entries.toList ⟨Hash256.zero, 0⟩).toOption.getD
    ⟨⟨Hash256.zero, 0⟩, 0, [], Hash256.zero, [], 0⟩

set_option maxRecDepth 10000 in
/-- It is listed twice. -/
theorem repeated_proof_accepted : ¬ ∀ (s : UtxoSet) (st : PassbookStatement), st.utxoRoot = s.computeUtxoRoot Blake3.digest →
    Apart Blake3.digest s st.activeUtxoProofs → st.verifyIntegrity Blake3.digest = true →
    st.confirmedNativeBalanceQuanta.toNat ≤ s.distinctValue (st.activeUtxoProofs.map name) := by
  intro h
  have hbad := h (UtxoSet.threeOutputs 1 true)
    ⟨Core.Address.new [], 0, Hash256.zero, (UtxoSet.threeOutputs 1 true).computeUtxoRoot Blake3.digest, 1400, ∅, [],
      [firstProof, firstProof]⟩ rfl (by decide +kernel) (by decide +kernel)
  revert hbad
  decide +kernel

end PassbookStatement

/-! ## Generated statements -/

/-- The outputs of a set with their outpoints, as its hash map hands them out. -/
def UtxoSet.Listing (s : UtxoSet) : Type := { es : List (OutPoint × UtxoEntry) // es.Perm s.entries.toList }

/-- `get_entries_sorted_by_fee_rate`. -/
def queryMempool (m : Mempool) : List MempoolEntry :=
  (m.priorityIndex.toList.map (·.1)).reverse.filterMap fun key => m.entries[key.txid]?

structure PassbookView where
  confirmedNativeBalanceQuanta : UInt64
  tokenBalances : Table Hash256 UInt64
  /-- An `i64`. -/
  pendingNativeBalanceQuanta : Int
  entries : List PassbookEntry

namespace Passbook

def requireReady (state : NodeState) : Except PassbookError Unit :=
  match state with
  | .ready => .ok ()
  | .running => .ok ()
  | other => .error (.nodeNotReady other)

section
variable (H : Hasher) (passbook : Passbook)

def view (state : NodeState) (node : Node) (visit : node.chain.utxo.Visit) : Except PassbookError PassbookView :=
  match requireReady state with
  | .error e => .error e
  | .ok () =>
    match passbook.sumNativeOwned H visit with
    | .error e => .error e
    | .ok confirmedNative =>
      let pending := queryMempool node.mempool
      match projectConfirmedHistoryViaIndex H passbook node.storage node.chain.tree.canonicalHeight with
      | .error e => .error e
      | .ok confirmed =>
        let entries := assignEntryNumbers (confirmed ++ projectPendingEntries H passbook node.chain.utxo pending)
        match passbook.pendingDelta H node.chain.utxo pending with
        | .error e => .error e
        | .ok pendingNative => .ok ⟨confirmedNative, passbook.sumTokenOwned H visit, pendingNative, entries⟩

/-- An output under the locking condition is listed for the address. -/
def selects (address : Core.Address) (lockingCondition : Bytes) : Bool :=
  match parseLockingCondition H lockingCondition with
  | .scy20 _ => false
  | _ =>
    match StorageEngine.extractAddressFromLockingCondition H lockingCondition with
    | some h => Core.Address.new h == address
    | none => passbook.owns H lockingCondition && passbook.addresses.contains address

/-- The outpoints listed for the address, by txid, then index. -/
def userOutpoints (address : Core.Address) (entries : List (OutPoint × UtxoEntry)) : List OutPoint :=
  ((entries.filter fun p => passbook.selects H address p.2.output.lockingCondition).map (·.1)).insertionSort OutPoint.le

/-- The loop over the outpoints. -/
def generateProofs (entries : List (OutPoint × UtxoEntry)) : List OutPoint → Except PassbookError (List UtxoMerkleProof)
  | [] => .ok []
  | op :: ops =>
    match generateUtxoMerkleProof H entries op with
    | .error e => .error (.proofFailed e)
    | .ok proof =>
      match generateProofs entries ops with
      | .error e => .error e
      | .ok proofs => .ok (proof :: proofs)

def generateStatement (state : NodeState) (node : Node) (listed : node.chain.utxo.Listing) (visit : node.chain.utxo.Visit)
    (address : Core.Address) : Except PassbookError PassbookStatement :=
  match requireReady state with
  | .error e => .error e
  | .ok () =>
    match node.storage.getBlock node.chain.tree.canonicalTip with
    | .error e => .error (.storageError e)
    | .ok none => .error .staleLedgerState
    | .ok (some block) =>
      match generateProofs H listed.1 (passbook.userOutpoints H address listed.1) with
      | .error e => .error e
      | .ok activeUtxoProofs =>
        match passbook.view H state node visit with
        | .error e => .error e
        | .ok view => .ok ⟨address, node.chain.tree.canonicalHeight, block.header.hash H, block.header.utxoRoot,
            view.confirmedNativeBalanceQuanta, view.tokenBalances, view.entries, activeUtxoProofs⟩

end

variable {H : Hasher} {passbook : Passbook}

theorem view_balance {state : NodeState} {node : Node} {visit : node.chain.utxo.Visit} {v : PassbookView}
    (h : passbook.view H state node visit = .ok v) :
    passbook.sumNativeOwned H visit = .ok v.confirmedNativeBalanceQuanta := by
  unfold view at h
  split at h
  · cases h
  · split at h
    · cases h
    · rename_i confirmedNative hsum
      simp only at h
      split at h
      · cases h
      · split at h
        · cases h
        · cases h
          exact hsum

/-- What a generated statement consists of. -/
theorem generateStatement_ok {state : NodeState} {node : Node} {listed : node.chain.utxo.Listing}
    {visit : node.chain.utxo.Visit} {address : Core.Address} {st : PassbookStatement}
    (h : passbook.generateStatement H state node listed visit address = .ok st) :
    (∃ block, node.storage.getBlock node.chain.tree.canonicalTip = .ok (some block) ∧ st.utxoRoot = block.header.utxoRoot) ∧
      generateProofs H listed.1 (passbook.userOutpoints H address listed.1) = .ok st.activeUtxoProofs ∧
      passbook.sumNativeOwned H visit = .ok st.confirmedNativeBalanceQuanta := by
  unfold generateStatement at h
  split at h
  · cases h
  · split at h
    · cases h
    · cases h
    · rename_i block hblock
      split at h
      · cases h
      · rename_i proofs hproofs
        split at h
        · cases h
        · rename_i v hview
          cases h
          exact ⟨⟨block, hblock, rfl⟩, hproofs, view_balance hview⟩

/-- Generated proofs claim what the set has, and verify against its root only. -/
theorem generateProofs_ok {s : UtxoSet} {listed : s.Listing} {ops : List OutPoint} : ∀ {proofs : List UtxoMerkleProof},
    (∀ op ∈ ops, ∃ e, s.entries[op]? = some e) → generateProofs H listed.1 ops = .ok proofs →
      PassbookStatement.claimed proofs = (ops.map s.valueAt).sum ∧
      ∀ root, (∀ p ∈ proofs, p.verify H root = true) ↔ ops = [] ∨ root = s.computeUtxoRoot H := by
  induction ops with
  | nil =>
    intro proofs _ h
    cases h
    exact ⟨rfl, by simp⟩
  | cons op ops ih =>
    intro proofs hmem h
    obtain ⟨⟨e, he⟩, hrest⟩ := List.forall_mem_cons.mp hmem
    obtain ⟨path, i, hgen, hclimb, -⟩ := generate_ok (H := H) s listed.2 he
    rw [generateProofs, hgen] at h
    simp only at h
    split at h
    · cases h
    · rename_i tail htail
      cases h
      obtain ⟨hclaimed, hverify⟩ := ih hrest htail
      have hvalue : s.valueAt op = e.output.value.toNat := by
        rw [UtxoSet.valueAt, he]
        rfl
      refine ⟨?_, fun root => ?_⟩
      · rw [List.map_cons, List.sum_cons, hvalue, ← hclaimed]
        exact List.sum_cons
      · have hfirst : UtxoMerkleProof.verify H ⟨op, e.output.value, e.output.lockingCondition,
            UtxoSet.computeUtxoLeaf H op e.output, path, i⟩ root = true ↔ root = s.computeUtxoRoot H := by
          refine verify_own_leaf.trans ?_
          rw [hclimb, eq_comm]
        rw [List.forall_mem_cons, hfirst, hverify root]
        simp
        tauto

/-- What is listed for an address of the passbook is the passbook's, and native. -/
theorem nativeWeight_of_selects {address : Core.Address} (haddr : address ∈ passbook.addresses) {out : TxOut}
    (h : passbook.selects H address out.lockingCondition = true) : passbook.nativeWeight H out = out.value.toNat := by
  have howns : passbook.owns H out.lockingCondition = true := by
    by_cases hlock : passbook.ownedLocks.contains out.lockingCondition = true
    · rw [owns, if_pos hlock]
    · rw [selects] at h
      split at h
      · cases h
      · cases hextract : StorageEngine.extractAddressFromLockingCondition H out.lockingCondition with
        | none =>
          rw [hextract] at h
          exact (Bool.and_eq_true_iff.mp h).1
        | some hash =>
          rw [hextract] at h
          rw [owns, if_neg hlock, hextract]
          have hnew : Core.Address.new hash = address := beq_iff_eq.mp h
          exact List.any_eq_true.mpr ⟨address, haddr, by rw [← hnew]; simp⟩
  unfold nativeWeight
  rw [if_pos howns]
  split
  · rename_i hparse
    rw [selects, hparse] at h
    cases h
  · rfl

section
variable {s : UtxoSet} {listed : s.Listing} {address : Core.Address}

theorem mem_userOutpoints {op : OutPoint} : op ∈ passbook.userOutpoints H address listed.1 ↔
    ∃ e, s.entries[op]? = some e ∧ passbook.selects H address e.output.lockingCondition = true := by
  rw [userOutpoints, (List.perm_insertionSort _ _).mem_iff, List.mem_map]
  constructor
  · rintro ⟨⟨o, e⟩, hmem, rfl⟩
    obtain ⟨hlisted, hselects⟩ := List.mem_filter.mp hmem
    exact ⟨e, Table.mem_toList.mp (listed.2.mem_iff.mp hlisted), hselects⟩
  · rintro ⟨e, he, hselects⟩
    exact ⟨(op, e), List.mem_filter.mpr ⟨listed.2.mem_iff.mpr (Table.mem_toList.mpr he), hselects⟩, rfl⟩

/-- What is listed for the address is what the passbook owns less what is not listed. -/
theorem userOutpoints_value (haddr : address ∈ passbook.addresses) :
    ((passbook.userOutpoints H address listed.1).map s.valueAt).sum +
      ((s.entries.toList.filter fun p => !passbook.selects H address p.2.output.lockingCondition).map
        fun p => passbook.nativeWeight H p.2.output).sum = s.weight (passbook.nativeWeight H) := by
  have hselected : ((passbook.userOutpoints H address listed.1).map s.valueAt).sum =
      ((s.entries.toList.filter fun p => passbook.selects H address p.2.output.lockingCondition).map
        fun p => passbook.nativeWeight H p.2.output).sum := by
    rw [userOutpoints, ((List.perm_insertionSort _ _).map _).sum_eq, List.map_map, ((listed.2.filter _).map _).sum_eq]
    refine congrArg List.sum (List.map_congr_left fun p hp => ?_)
    obtain ⟨hmem, hselects⟩ := List.mem_filter.mp hp
    have he : s.entries[p.1]? = some p.2 := Table.mem_toList.mp hmem
    rw [Function.comp_apply, UtxoSet.valueAt, he, nativeWeight_of_selects haddr hselects]
    rfl
  have hall := ((List.filter_append_perm (fun p : OutPoint × UtxoEntry =>
    passbook.selects H address p.2.output.lockingCondition) s.entries.toList).map
      fun p => passbook.nativeWeight H p.2.output).sum_eq
  rw [List.map_append, List.sum_append] at hall
  rw [hselected, hall]
  rfl

end

/-- For every state of a node, every passbook and every address of it: the statement that is
    generated is accepted exactly when every native output of the passbook that counts is
    listed for the address, and, where any output is, the tip's header has the set's root. -/
theorem generated_statement_iff {state : NodeState} {node : Node} {listed : node.chain.utxo.Listing}
    {visit : node.chain.utxo.Visit} {address : Core.Address} {st : PassbookStatement} (haddr : address ∈ passbook.addresses)
    (h : passbook.generateStatement H state node listed visit address = .ok st) :
    st.verifyIntegrity H = true ↔
      (∀ (o : OutPoint) (e : UtxoEntry), node.chain.utxo.entries[o]? = some e → passbook.nativeWeight H e.output ≠ 0 →
        passbook.selects H address e.output.lockingCondition = true) ∧
      ((∀ (o : OutPoint) (e : UtxoEntry), node.chain.utxo.entries[o]? = some e →
          passbook.selects H address e.output.lockingCondition = false) ∨
        ∀ block, node.storage.getBlock node.chain.tree.canonicalTip = .ok (some block) →
          block.header.utxoRoot = node.chain.utxo.computeUtxoRoot H) := by
  obtain ⟨⟨block, hblock, hroot⟩, hproofs, hsum⟩ := generateStatement_ok h
  obtain ⟨hclaimed, hverify⟩ := generateProofs_ok (fun op hop => (mem_userOutpoints.mp hop).imp fun _ => And.left) hproofs
  have hvalue := @userOutpoints_value H passbook _ listed _ haddr
  rw [PassbookStatement.verifyIntegrity_iff, hverify, hclaimed, sumNativeOwned_ok_iff.mp hsum, and_comm]
  refine and_congr ?_ (or_congr ?_ ?_)
  · -- nothing is missing from the sum exactly when no term that is left out counts
    have hzero : node.chain.utxo.weight (passbook.nativeWeight H) =
        ((passbook.userOutpoints H address listed.1).map node.chain.utxo.valueAt).sum ↔
        ((node.chain.utxo.entries.toList.filter fun p => !passbook.selects H address p.2.output.lockingCondition).map
          fun p => passbook.nativeWeight H p.2.output).sum = 0 := by omega
    rw [hzero, List.sum_eq_zero_iff, List.forall_mem_map]
    constructor
    · intro hnone o e he hweight
      by_contra hselects
      have hmem : (o, e) ∈ node.chain.utxo.entries.toList := Table.mem_toList.mpr he
      exact hweight (hnone (o, e) (List.mem_filter.mpr ⟨hmem, by simpa using hselects⟩))
    · intro hlisted p hp
      obtain ⟨hmem, hselects⟩ := List.mem_filter.mp hp
      by_contra hweight
      rw [hlisted p.1 p.2 (Table.mem_toList.mp hmem) hweight] at hselects
      cases hselects
  · rw [List.eq_nil_iff_forall_not_mem]
    constructor
    · intro hnone o e he
      by_contra hselects
      exact hnone o (mem_userOutpoints.mpr ⟨e, he, by simpa using hselects⟩)
    · intro hnone op hop
      obtain ⟨e, he, hselects⟩ := mem_userOutpoints.mp hop
      rw [hnone op e he] at hselects
      cases hselects
  · rw [hroot]
    constructor
    · intro hsame block' hblock'
      rw [hblock] at hblock'
      cases hblock'
      exact hsame
    · exact fun hsame => hsame block hblock

/-! ### The two founders -/

/-- The address of a locking condition. -/
def addressOf (lock : Bytes) : Core.Address :=
  Core.Address.new ((StorageEngine.extractAddressFromLockingCondition Blake3.digest lock).getD [])

/-- The statement of a fresh node for one of the locks of a passbook. -/
def freshStatement (locks : List Bytes) (lock : Bytes) : Except PassbookError PassbookStatement :=
  (Passbook.new Blake3.digest locks).generateStatement Blake3.digest .running (freshNode Blake3.digest)
    ⟨_, List.Perm.refl _⟩ (freshNode Blake3.digest).chain.utxo.visit (addressOf lock)

/-- Something is generated, and the check says this of it. -/
theorem freshStatement_eq {locks : List Bytes} {lock : Bytes} {accepted : Bool}
    (h : (freshStatement locks lock).toOption.map (·.verifyIntegrity Blake3.digest) = some accepted) :
    ∃ st, freshStatement locks lock = .ok st ∧ st.verifyIntegrity Blake3.digest = accepted := by
  cases hst : freshStatement locks lock with
  | error e =>
    rw [hst] at h
    cases h
  | ok st =>
    rw [hst] at h
    exact ⟨st, rfl, Option.some.inj h⟩

set_option maxRecDepth 10000 in
/-- The founder's own passbook, at the genesis block. -/
theorem generated_statement_founder : ∃ st, freshStatement [founderLockingScript] founderLockingScript = .ok st ∧
    st.verifyIntegrity Blake3.digest = true := by
  obtain ⟨st, hst, -⟩ : ∃ st, freshStatement [founderLockingScript] founderLockingScript = .ok st ∧
    st.verifyIntegrity Blake3.digest = true := freshStatement_eq (by decide +kernel)
  refine ⟨st, hst, (generated_statement_iff (by decide +kernel) hst).mpr ⟨?_, .inr ?_⟩⟩
  · have hall : ∀ p ∈ (freshNode Blake3.digest).chain.utxo.entries.toList,
        (Passbook.new Blake3.digest [founderLockingScript]).nativeWeight Blake3.digest p.2.output ≠ 0 →
        (Passbook.new Blake3.digest [founderLockingScript]).selects Blake3.digest (addressOf founderLockingScript)
          p.2.output.lockingCondition = true := by decide +kernel
    exact fun o e he => hall (o, e) (Table.mem_toList.mpr he)
  · intro block hblock
    have hgenesis : (freshNode Blake3.digest).storage.getBlock (freshNode Blake3.digest).chain.tree.canonicalTip =
      .ok (some (buildGenesisBlock Blake3.digest easyBits)) := by decide +kernel
    rw [hgenesis] at hblock
    cases hblock
    decide +kernel

set_option maxRecDepth 10000 in
/-- A passbook of the founder's and the developer's: the statement for the founder lists one
    output, and carries the sum of both. -/
theorem shared_balance_refused : NodeRun Blake3.digest acceptAll (freshNode Blake3.digest) ∧
    addressOf founderLockingScript ∈
      (Passbook.new Blake3.digest [founderLockingScript, developerLockingScript]).addresses ∧
    ∃ st, freshStatement [founderLockingScript, developerLockingScript] founderLockingScript = .ok st ∧
      st.verifyIntegrity Blake3.digest = false :=
  ⟨.fresh freshNode_recovered, by decide +kernel, freshStatement_eq (by decide +kernel)⟩

end Passbook

end Scytale
