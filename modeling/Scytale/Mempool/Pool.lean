/-
  Scytale.Mempool.Pool — the pool of unconfirmed transactions
  (crates/scytale-mempool/src/pool.rs, entry.rs, error.rs).

  Hash maps and hash sets are tables; where the source goes through one in its own order,
  the tables' order stands for it: counts, sets and sums do not depend on the order. The
  loops over work lists take as fuel the number of steps they can make; the loop that makes
  room for an entry ends in `stuck` when an index names no entry, where the source would
  not end. A panic is the error `panicked`.
-/
import Scytale.Core.Authorization

namespace Scytale

open Lib

def defaultMaxMempoolCount : Nat := 5000

def defaultMaxMempoolBytes : Nat := 5000000

/-- In milli-quanta per byte. -/
def defaultMinRelayFeeRate : UInt64 := 1000

def maxAncestors : Nat := 25

def maxDescendants : Nat := 25

/-! ## Entries -/

/-- `std::cmp::Reverse<u64>`: the earlier time is the greater. -/
structure ReverseTime where
  secs : UInt64
  deriving DecidableEq

namespace ReverseTime

instance : Ord ReverseTime := ⟨fun a b => compare b.secs a.secs⟩

instance : Std.TransOrd ReverseTime where
  eq_swap {a b} := Std.OrientedOrd.eq_swap (a := b.secs) (b := a.secs)
  isLE_trans {a b c} hab hbc := Std.TransOrd.isLE_trans (a := c.secs) (b := b.secs) (c := a.secs) hbc hab

instance : Std.LawfulEqOrd ReverseTime where
  eq_of_compare {a b} h := by
    have h' : b.secs = a.secs := Std.compare_eq_iff_eq.mp h
    cases a; cases b; cases h'
    rfl

end ReverseTime

/-- The derived order: fee rate, then earlier arrival, then identifier. -/
structure PriorityKey where
  feeRate : UInt64
  addedTime : ReverseTime
  txid : Hash256
  deriving DecidableEq

namespace PriorityKey

instance : Ord PriorityKey := ⟨compareLex (compareOn feeRate) (compareLex (compareOn addedTime) (compareOn txid))⟩

instance : Std.TransOrd PriorityKey :=
  inferInstanceAs (Std.TransCmp (compareLex (compareOn feeRate) (compareLex (compareOn addedTime) (compareOn txid))))

instance : Std.LawfulEqOrd PriorityKey where
  eq_of_compare {a b} h := by
    have h' : compareLex (compareOn feeRate) (compareLex (compareOn addedTime) (compareOn txid)) a b = .eq := h
    rw [compareLex_eq_eq, compareLex_eq_eq] at h'
    obtain ⟨h1, h2, h3⟩ := h'
    have e1 : a.feeRate = b.feeRate := Std.compare_eq_iff_eq.mp h1
    have e2 : a.addedTime = b.addedTime := Std.compare_eq_iff_eq.mp h2
    have e3 : a.txid = b.txid := Std.compare_eq_iff_eq.mp h3
    cases a; cases b
    cases e1; cases e2; cases e3
    rfl

end PriorityKey

structure MempoolEntry where
  transaction : Transaction
  txid : Hash256
  fee : UInt64
  /-- In milli-quanta per byte. -/
  feeRate : UInt64
  sizeBytes : Nat
  addedTime : UInt64
  deriving DecidableEq

namespace MempoolEntry

def new (H : Hasher) (transaction : Transaction) (fee addedTime : UInt64) : MempoolEntry :=
  let sizeBytes := max (match transaction.toCanonicalBytes with | .ok bs => bs.length | .error _ => 1) 1
  -- `saturating_mul`
  let feeRate := UInt64.ofNat (min (fee.toNat * 1000) (2 ^ 64 - 1) / sizeBytes)
  ⟨transaction, transaction.txid H, fee, feeRate, sizeBytes, addedTime⟩

def priorityKey (e : MempoolEntry) : PriorityKey := ⟨e.feeRate, ⟨e.addedTime⟩, e.txid⟩

end MempoolEntry

inductive MempoolError where
  | duplicateTx (txid : Hash256)
  | missingInputUtxo (o : OutPoint)
  | conflictDoubleSpend (o : OutPoint) (conflictingTx : Hash256)
  | authorizationFailed (e : AuthorizationError)
  | valueDeficit (totalIn totalOut : UInt64)
  | structuralError (e : TransactionError)
  | coinbaseNotAllowed
  | arithmeticOverflow
  | feeTooLow (feeRate minRelayFee : UInt64)
  | mempoolFull (feeRate lowestFeeRate : UInt64)
  | stuck
  | panicked
  deriving DecidableEq

/-! ## The pool -/

/-- A set of identifiers. -/
abbrev TxidSet := Table Hash256 Unit

structure Mempool where
  entries : Table Hash256 MempoolEntry
  priorityIndex : Table PriorityKey Unit
  /-- The outpoints pending transactions spend, and by which. -/
  spentOutpoints : Table OutPoint Hash256
  parentToChildren : Table Hash256 TxidSet
  childToParents : Table Hash256 TxidSet
  totalBytes : Nat
  maxCount : Nat
  maxBytes : Nat
  minFeeRate : UInt64
  deriving DecidableEq

namespace Mempool

def withConfig (maxCount maxBytes : Nat) (minFeeRate : UInt64) : Mempool :=
  ⟨∅, ∅, ∅, ∅, ∅, 0, maxCount, maxBytes, minFeeRate⟩

def new : Mempool := withConfig defaultMaxMempoolCount defaultMaxMempoolBytes defaultMinRelayFeeRate

def get (m : Mempool) (txid : Hash256) : Option MempoolEntry := m.entries[txid]?

/-- `usize::saturating_add`. -/
def addBytes (a b : Nat) : Nat := min (a + b) (2 ^ 64 - 1)

/-- The links of a dependency map. -/
def linkCount (links : Table Hash256 TxidSet) : Nat := (links.toList.map fun p => p.2.toList.length).sum

/-! ## Removing -/

/-- The entry, with what the indexes hold of it. -/
def dropEntry (m : Mempool) (txid : Hash256) : Mempool :=
  match m.entries[txid]? with
  | none => m
  | some entry => { m with
      entries := m.entries.erase txid
      priorityIndex := m.priorityIndex.erase entry.priorityKey
      totalBytes := m.totalBytes - entry.sizeBytes
      spentOutpoints := Table.eraseAll m.spentOutpoints (entry.transaction.inputs.map TxIn.previousOutput) }

/-- The links to the parents, from both sides. -/
def unlinkParents (m : Mempool) (txid : Hash256) : Mempool :=
  match m.childToParents[txid]? with
  | none => m
  | some parents => { m with
      childToParents := m.childToParents.erase txid
      parentToChildren := parents.toList.foldl (fun links p =>
        match links[p.1]? with
        | none => links
        | some children => links.insert p.1 (children.erase txid)) m.parentToChildren }

/-- The work list of `remove_transaction_and_descendants`, its last element first. -/
def collectDescendants (links : Table Hash256 TxidSet) : Nat → List Hash256 → List Hash256 → List Hash256
  | 0, _, toRemove => toRemove
  | _ + 1, [], toRemove => toRemove
  | f + 1, id :: queue, toRemove =>
    if id ∈ toRemove then collectDescendants links f queue toRemove
    else
      let children : List Hash256 := match links[id]? with
        | none => []
        | some children => children.toList.map (·.1)
      collectDescendants links f (children.reverse ++ queue) (toRemove ++ [id])

def removeOne (m : Mempool) (txid : Hash256) : Mempool :=
  let m := (m.dropEntry txid).unlinkParents txid
  { m with parentToChildren := m.parentToChildren.erase txid }

def removeTransactionAndDescendants (m : Mempool) (txid : Hash256) : Mempool × List Hash256 :=
  let toRemove := collectDescendants m.parentToChildren (linkCount m.parentToChildren + 2) [txid] []
  (toRemove.foldl removeOne m, toRemove)

/-! ## Admission -/

/-- The loop over the inputs: what each resolves to, and the parents in the pool. -/
def resolveInputs (m : Mempool) (canonicalUtxos : UtxoSet) : List UtxoEntry → TxidSet → List TxIn →
    Except MempoolError (List UtxoEntry × TxidSet)
  | entries, parents, [] => .ok (entries, parents)
  | entries, parents, input :: inputs =>
    let o := input.previousOutput
    match canonicalUtxos.entries[o]? with
    | some entry => resolveInputs m canonicalUtxos (entries ++ [entry]) parents inputs
    | none =>
      match m.entries[o.txid]? with
      | none => .error (.missingInputUtxo o)
      | some parent =>
        match parent.transaction.outputs[o.index.toNat]? with
        | none => .error (.missingInputUtxo o)
        | some out => resolveInputs m canonicalUtxos (entries ++ [⟨out, 0, false⟩]) (parents.insert o.txid ()) inputs

/-- The work list over the ancestors: those not seen before are counted. -/
def countAncestors (links : Table Hash256 TxidSet) : Nat → List Hash256 → TxidSet → Nat → Nat
  | 0, _, _, count => count
  | _ + 1, [], _, count => count
  | f + 1, parent :: pending, visited, count =>
    let fresh : List Hash256 := match links[parent]? with
      | none => []
      | some grandparents => (grandparents.toList.map (·.1)).filter fun g => !visited.contains g
    countAncestors links f (fresh.reverse ++ pending) (fresh.foldl (fun v g => v.insert g ()) visited) (count + fresh.length)

/-- The first in-flight transaction that spends one of the inputs. -/
def findConflict (m : Mempool) : List TxIn → Option (OutPoint × Hash256)
  | [] => none
  | input :: inputs =>
    match m.spentOutpoints[input.previousOutput]? with
    | some conflicting => some (input.previousOutput, conflicting)
    | none => findConflict m inputs

/-- The checked sum of the inputs. -/
def sumEntries : UInt64 → List UtxoEntry → Except MempoolError UInt64
  | total, [] => .ok total
  | total, e :: es =>
    match checkedAdd total e.output.value with
    | some t => sumEntries t es
    | none => .error .arithmeticOverflow

/-- The eviction loop: what it removed stays removed when it gives up. -/
def makeRoom (entry : MempoolEntry) : Nat → Mempool → Mempool × Except MempoolError Unit
  | 0, m => (m, .error .stuck)
  | f + 1, m =>
    if m.entries.size ≥ m.maxCount ∨ addBytes m.totalBytes entry.sizeBytes > m.maxBytes then
      match m.priorityIndex.toList.head? with
      | none => (m, .ok ())
      | some (lowest, _) =>
        if entry.feeRate > lowest.feeRate then makeRoom entry f (m.removeTransactionAndDescendants lowest.txid).1
        else (m, .error (.mempoolFull entry.feeRate lowest.feeRate))
    else (m, .ok ())

/-- Step 9: the entry, its inputs and its links. -/
def commitEntry (m : Mempool) (entry : MempoolEntry) (parents : TxidSet) : Mempool :=
  let txid := entry.txid
  { m with
    spentOutpoints := entry.transaction.inputs.foldl (fun s i => s.insert i.previousOutput txid) m.spentOutpoints
    parentToChildren := parents.toList.foldl (fun links p =>
      links.insert p.1 ((links[p.1]?.getD ∅).insert txid ())) m.parentToChildren
    childToParents := if parents.isEmpty then m.childToParents else m.childToParents.insert txid parents
    priorityIndex := m.priorityIndex.insert entry.priorityKey ()
    totalBytes := addBytes m.totalBytes entry.sizeBytes
    entries := m.entries.insert txid entry }

section
variable (H : Hasher)

/-- Steps 1 to 7: the checks, the entry and its parents. -/
def examine (m : Mempool) (tx : Transaction) (canonicalUtxos : UtxoSet) (verifier : AuthorizationVerifier)
    (currentTimestamp : UInt64) : Except MempoolError (MempoolEntry × TxidSet) :=
  match tx.validateStateless with
  | .error e => .error (.structuralError e)
  | .ok () =>
    if tx.isCoinbase then .error .coinbaseNotAllowed
    else if !tx.encodable then .error .panicked
    else if m.entries.contains (tx.txid H) then .error (.duplicateTx (tx.txid H))
    else match m.findConflict tx.inputs with
      | some (o, conflicting) => .error (.conflictDoubleSpend o conflicting)
      | none =>
        match m.resolveInputs canonicalUtxos [] ∅ tx.inputs with
        | .error e => .error e
        | .ok (utxoEntries, parents) =>
          let pending := (parents.toList.map (·.1)).reverse
          if countAncestors m.childToParents (parents.size + linkCount m.childToParents + 1) pending parents parents.size >
              maxAncestors then .error (.mempoolFull 0 (UInt64.ofNat maxAncestors))
          else if parents.toList.any fun p => (m.parentToChildren[p.1]?.map (·.size)).getD 0 ≥ maxDescendants then
            .error (.mempoolFull 0 (UInt64.ofNat maxDescendants))
          else match verifyTransactionAuthorization H tx utxoEntries verifier with
            | .error e => .error (.authorizationFailed e)
            | .ok () =>
              match sumEntries 0 utxoEntries with
              | .error e => .error e
              | .ok totalIn =>
                match tx.totalOutputQuanta with
                | .error e => .error (.structuralError e)
                | .ok totalOut =>
                  if totalIn < totalOut then .error (.valueDeficit totalIn totalOut)
                  else
                    let entry := MempoolEntry.new H tx (totalIn - totalOut) currentTimestamp
                    if entry.feeRate < m.minFeeRate then .error (.feeTooLow entry.feeRate m.minFeeRate)
                    else .ok (entry, parents)

def admitTransaction (m : Mempool) (tx : Transaction) (canonicalUtxos : UtxoSet) (verifier : AuthorizationVerifier)
    (currentTimestamp : UInt64) : Mempool × Except MempoolError Hash256 :=
  match examine H m tx canonicalUtxos verifier currentTimestamp with
  | .error e => (m, .error e)
  | .ok (entry, parents) =>
    match makeRoom entry (m.priorityIndex.size + 1) m with
    | (m, .error e) => (m, .error e)
    | (m, .ok ()) => (m.commitEntry entry parents, .ok entry.txid)

/-! ## Blocks and reorganizations -/

/-- A confirmed transaction leaves; the links to its children stay. -/
def confirmOne (m : Mempool) (txid : Hash256) : Mempool := (m.dropEntry txid).unlinkParents txid

/-- Neither unspent nor an output of another entry. -/
def brokenInput (m : Mempool) (utxos : UtxoSet) (input : TxIn) : Bool :=
  !utxos.entries.contains input.previousOutput &&
    !((m.entries[input.previousOutput.txid]?.map fun p =>
      decide (input.previousOutput.index.toNat < p.transaction.outputs.length)).getD false)

def onBlockConnected (m : Mempool) (block : Block) (updatedCanonicalUtxos : UtxoSet) : Mempool :=
  let m := (block.transactions.tail.map fun t => t.txid H).foldl confirmOne m
  let invalidTxs := (m.entries.toList.filter fun p =>
    p.2.transaction.inputs.any (m.brokenInput updatedCanonicalUtxos)).map (·.1)
  invalidTxs.foldl (fun m txid => (m.removeTransactionAndDescendants txid).1) m

/-- The transactions back in the pool, and those it did not take, with the reason. -/
def onReorg (m : Mempool) (disconnectedTxs : List Transaction) (canonicalUtxos : UtxoSet)
    (verifier : AuthorizationVerifier) (currentTimestamp : UInt64) : Mempool × List (Hash256 × MempoolError) :=
  disconnectedTxs.foldl (fun s tx =>
    if tx.isCoinbase then s
    else match s.1.admitTransaction H tx canonicalUtxos verifier currentTimestamp with
      | (m, .error e) => (m, s.2 ++ [(tx.txid H, e)])
      | (m, .ok _) => (m, s.2)) (m, [])

end

/-! ## Selection -/

structure Selection where
  txs : List Transaction
  fees : UInt64
  bytes : Nat
  included : TxidSet

/-- One round of the loop over the priority index. -/
def selectOne (m : Mempool) (maxBytes : Nat) (s : Selection) (key : PriorityKey) : Selection :=
  match m.entries[key.txid]? with
  | none => s
  | some entry =>
    if ((m.childToParents[key.txid]?.map fun parents => parents.toList.all fun p => s.included.contains p.1).getD true) &&
        decide (addBytes s.bytes entry.sizeBytes ≤ maxBytes) then
      -- `saturating_add`
      ⟨s.txs ++ [entry.transaction], UInt64.ofNat (min (s.fees.toNat + entry.fee.toNat) (2 ^ 64 - 1)),
        addBytes s.bytes entry.sizeBytes, s.included.insert key.txid ()⟩
    else s

/-- From the highest key down. -/
def selectTransactionsForBlock (m : Mempool) (maxBytes : Nat) : List Transaction × UInt64 :=
  let s := (m.priorityIndex.toList.map (·.1)).reverse.foldl (m.selectOne maxBytes) ⟨[], 0, 0, ∅⟩
  (s.txs, s.fees)

end Mempool

end Scytale
