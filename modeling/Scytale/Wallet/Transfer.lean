/-
  Scytale.Wallet.Transfer — a payment from a wallet
  (apps/scytale-cli/src/main.rs, `TransferP2pkh`; apps/scytale-cli/src/wallet.rs).

  The largest outputs of the wallet are taken until they cover the amount and the fee; what is
  over goes back to it, and each input is signed.
  - `selectUtxos_fewest`: the fewest of the largest outputs that cover it are taken.
  - `signInputs_spec`: signing changes the authorizations only, and each is over the digest of
    the transaction that is sent.
  - `transfer_valid_iff`: the payment is valid exactly when what is over is nothing or no dust:
    the change has no check of its own.
-/
import Scytale.Script.P2pkh
import Scytale.Core.Sighash
import Scytale.Core.Applies
import Scytale.Hex

namespace Scytale

open Lib

/-- An output as the node shows it. -/
structure UtxoDto where
  txidHex : Bytes
  index : UInt32
  valueQuanta : UInt64
  lockingScriptHex : Bytes
  blockHeight : UInt64
  isCoinbase : Bool
  deriving DecidableEq

def UtxoDto.of (o : OutPoint) (e : UtxoEntry) : UtxoDto :=
  ⟨toHex o.txid.bytes, o.index, e.output.value, toHex e.output.lockingCondition, e.blockHeight, e.isCoinbase⟩

inductive TransferError where
  | user (text : String)
  | insufficientFunds (required available : UInt64)
  | invalidTxid (e : PrimitiveError)
  deriving DecidableEq

/-- A key pair as the wallet makes it, and what is relied on of Ed25519: what the key signs
    verifies under it. -/
structure Wallet (verifyStrict : VerifyStrict) where
  publicKey : Bytes
  sign : Hash256 → Bytes
  keySize : publicKey.length = 32
  signatureSize : ∀ digest, (sign digest).length = 64
  verifies : ∀ digest, verifyStrict publicKey digest (sign digest) = true

/-! ## The transaction -/

section
variable (H : Hasher) {verifyStrict : VerifyStrict} (wallet : Wallet verifyStrict)

/-- The address is the key's digest. -/
def Wallet.p2pkhLockingScript : Bytes := buildP2pkhLockingScript (H wallet.publicKey)

def saturatingAdd (a b : UInt64) : UInt64 := UInt64.ofNat (min (a.toNat + b.toNat) (2 ^ 64 - 1))

/-- The loop over the outputs, with what is accumulated so far. -/
def selectUtxos (totalNeeded : UInt64) : UInt64 → List UtxoDto → List UtxoDto × UInt64
  | accumulated, [] => ([], accumulated)
  | accumulated, u :: us =>
    let accumulated := saturatingAdd accumulated u.valueQuanta
    if accumulated ≥ totalNeeded then ([u], accumulated)
    else
      let rest := selectUtxos totalNeeded accumulated us
      (u :: rest.1, rest.2)

def transferInputs : List UtxoDto → Except PrimitiveError (List TxIn)
  | [] => .ok []
  | u :: us =>
    match Hash256.fromStr u.txidHex with
    | .error e => .error e
    | .ok txid =>
      match transferInputs us with
      | .error e => .error e
      | .ok inputs => .ok (TxIn.new ⟨txid, u.index⟩ [] :: inputs)

def transferOutputs (amount accumulated totalNeeded : UInt64) (recipientLock senderLock : Bytes) : List TxOut :=
  if accumulated > totalNeeded then [⟨amount, recipientLock⟩, ⟨accumulated - totalNeeded, senderLock⟩]
  else [⟨amount, recipientLock⟩]

/-- One round of the loop that signs. -/
def signInput (senderLock : Bytes) (tx : Transaction) (i : Nat) : Transaction :=
  { tx with inputs := tx.inputs.modify i fun input =>
      { input with authorization :=
          buildP2pkhUnlockingScript (wallet.sign (tx.computeSighash H i senderLock)) wallet.publicKey } }

def signInputs (senderLock : Bytes) (tx : Transaction) : Transaction :=
  (List.range tx.inputs.length).foldl (signInput H wallet senderLock) tx

def buildTransfer (utxos : List UtxoDto) (amount fee : UInt64) (recipient : Hash256) : Except TransferError Transaction :=
  match checkedAdd amount fee with
  | none => .error (.user "Amount plus fee overflow")
  | some totalNeeded =>
    let (selected, accumulated) := selectUtxos totalNeeded 0
      (utxos.insertionSort fun a b => b.valueQuanta ≤ a.valueQuanta)
    if accumulated < totalNeeded then .error (.insufficientFunds totalNeeded accumulated)
    else match transferInputs selected with
      | .error e => .error (.invalidTxid e)
      | .ok inputs => .ok (signInputs H wallet (wallet.p2pkhLockingScript H) ⟨transactionVersion1, inputs,
          transferOutputs amount accumulated totalNeeded (buildP2pkhLockingScript recipient)
            (wallet.p2pkhLockingScript H), 0⟩)

end

/-! ## What is selected -/

/-- The first `k` of the values cover what is needed, and no fewer do. -/
structure Fewest (needed : Nat) (values : List Nat) (k : Nat) : Prop where
  covers : needed ≤ (values.take k).sum
  fewer : ∀ j < k, (values.take j).sum < needed

theorem Fewest.unique {needed : Nat} {values : List Nat} {j k : Nat} (hj : Fewest needed values j)
    (hk : Fewest needed values k) : j = k := by
  rcases Nat.lt_trichotomy j k with h | h | h
  · have := hk.fewer j h
    have := hj.covers
    omega
  · exact h
  · have := hj.fewer k h
    have := hk.covers
    omega

def quanta (us : List UtxoDto) : List Nat := us.map fun u => u.valueQuanta.toNat

theorem saturatingAdd_of_lt {a b : UInt64} (h : a.toNat + b.toNat < 2 ^ 64) :
    (saturatingAdd a b).toNat = a.toNat + b.toNat := by
  rw [saturatingAdd, UInt64.toNat_ofNat', Nat.min_eq_left (by omega), Nat.mod_eq_of_lt h]

/-- The loop takes the first outputs that cover what is still needed. -/
theorem selectUtxos_fewest {totalNeeded : UInt64} {us : List UtxoDto} : ∀ {accumulated : UInt64},
    accumulated.toNat < totalNeeded.toNat → totalNeeded.toNat ≤ accumulated.toNat + (quanta us).sum →
      accumulated.toNat + (quanta us).sum < 2 ^ 64 →
      ∃ k, (selectUtxos totalNeeded accumulated us).1 = us.take k ∧
        (selectUtxos totalNeeded accumulated us).2.toNat = accumulated.toNat + ((quanta us).take k).sum ∧
        Fewest (totalNeeded.toNat - accumulated.toNat) (quanta us) k := by
  induction us with
  | nil =>
    intro accumulated hlt hfunds _
    simp [quanta] at hfunds
    omega
  | cons u us ih =>
    intro accumulated hlt hfunds hfits
    have hsum : (quanta (u :: us)).sum = u.valueQuanta.toNat + (quanta us).sum := List.sum_cons
    have hadd : (saturatingAdd accumulated u.valueQuanta).toNat = accumulated.toNat + u.valueQuanta.toNat :=
      saturatingAdd_of_lt (by omega)
    have htake : ∀ k, ((quanta (u :: us)).take (k + 1)).sum = u.valueQuanta.toNat + ((quanta us).take k).sum := fun k =>
      List.sum_cons
    rw [selectUtxos]
    by_cases hcovers : saturatingAdd accumulated u.valueQuanta ≥ totalNeeded
    · have hnat := UInt64.le_iff_toNat_le.mp hcovers
      simp only [if_pos hcovers]
      refine ⟨1, rfl, ?_, ?_, ?_⟩
      · rw [hadd, htake]
        simp
      · rw [htake]
        omega
      · intro j hj
        obtain rfl : j = 0 := by omega
        simp
        omega
    · have hnat := UInt64.lt_iff_toNat_lt.mp (UInt64.not_le.mp hcovers)
      simp only [if_neg hcovers]
      obtain ⟨k, hsel, hacc, hfew⟩ := @ih (saturatingAdd accumulated u.valueQuanta) (by omega) (by omega) (by omega)
      have hcov := hfew.covers
      refine ⟨k + 1, by rw [hsel]; rfl, ?_, ?_, ?_⟩
      · rw [hacc, htake]
        omega
      · rw [htake]
        omega
      · intro j hj
        cases j with
        | zero =>
          simp
          omega
        | succ j =>
          have := hfew.fewer j (by omega)
          rw [htake]
          omega

/-! ## The inputs -/

/-- An unspent output with its outpoint. -/
abbrev Coin := OutPoint × UtxoEntry

def shownCoins (coins : List Coin) : List UtxoDto := coins.map fun c => UtxoDto.of c.1 c.2

def Coin.value (c : Coin) : Nat := c.2.output.value.toNat

/-- Largest first, and equal ones in their order. -/
def largestFirst (coins : List Coin) : List Coin :=
  coins.insertionSort fun a b => b.2.output.value ≤ a.2.output.value

theorem shownCoins_largestFirst (coins : List Coin) :
    (shownCoins coins).insertionSort (fun a b => b.valueQuanta ≤ a.valueQuanta) = shownCoins (largestFirst coins) :=
  (List.map_insertionSort (fun a b : Coin => b.2.output.value ≤ a.2.output.value) _ _ coins fun _ _ _ _ => Iff.rfl).symm

theorem quanta_shownCoins (coins : List Coin) : quanta (shownCoins coins) = coins.map Coin.value := by
  rw [quanta, shownCoins, List.map_map]
  rfl

/-- The values of the largest outputs are the largest values. -/
theorem value_largestFirst (coins : List Coin) :
    (largestFirst coins).map Coin.value = (coins.map Coin.value).insertionSort (· ≥ ·) :=
  List.map_insertionSort _ _ _ _ fun _ _ _ _ => UInt64.le_iff_toNat_le

/-- Every outpoint shown is read back. -/
theorem transferInputs_shown (coins : List Coin) :
    transferInputs (shownCoins coins) = .ok (coins.map fun c => TxIn.new c.1 []) := by
  induction coins with
  | nil => rfl
  | cons c coins ih =>
    show transferInputs (UtxoDto.of c.1 c.2 :: shownCoins coins) = _
    rw [transferInputs, UtxoDto.of, Hash256.fromStr_toHex]
    simp only [ih]
    rfl

/-! ## Signing -/

section
variable {H : Hasher} {verifyStrict : VerifyStrict} {wallet : Wallet verifyStrict} {senderLock : Bytes}

/-- The digest does not see the authorizations. -/
theorem computeSighash_congr {a b : Transaction} (hin : a.inputs.map TxIn.previousOutput = b.inputs.map TxIn.previousOutput)
    (hout : a.outputs = b.outputs) (i : Nat) (lock : Bytes) : a.computeSighash H i lock = b.computeSighash H i lock := by
  have hflat : ∀ t : Transaction, (t.inputs.flatMap fun i => i.previousOutput.toFixedBytes) =
      (t.inputs.map TxIn.previousOutput).flatMap OutPoint.toFixedBytes := fun t => by rw [List.flatMap_map]
  simp only [Transaction.computeSighash, Transaction.sighashPreimage, hflat, hin, hout]

/-- The first `n` inputs are signed, and all else is as it was. -/
structure Signed (H : Hasher) (wallet : Wallet verifyStrict) (senderLock : Bytes) (tx : Transaction) (n : Nat)
    (tx' : Transaction) : Prop where
  version : tx'.version = tx.version
  outputs : tx'.outputs = tx.outputs
  lockTime : tx'.lockTime = tx.lockTime
  outpoints : tx'.inputs.map TxIn.previousOutput = tx.inputs.map TxIn.previousOutput
  authorizations : ∀ i < n, ∀ input, tx'.inputs[i]? = some input → input.authorization =
    buildP2pkhUnlockingScript (wallet.sign (tx'.computeSighash H i senderLock)) wallet.publicKey

theorem Signed.sign {tx tx' : Transaction} {n : Nat} (h : Signed H wallet senderLock tx n tx') :
    Signed H wallet senderLock tx (n + 1) (signInput H wallet senderLock tx' n) := by
  have houtpoints : (signInput H wallet senderLock tx' n).inputs.map TxIn.previousOutput =
      tx'.inputs.map TxIn.previousOutput := by
    apply List.ext_getElem?
    intro j
    simp only [signInput, List.getElem?_map, List.getElem?_modify]
    split
    · cases tx'.inputs[j]? <;> rfl
    · cases tx'.inputs[j]? <;> rfl
  have hdigest : ∀ i, (signInput H wallet senderLock tx' n).computeSighash H i senderLock =
      tx'.computeSighash H i senderLock := fun i => computeSighash_congr houtpoints rfl i senderLock
  refine ⟨h.version, h.outputs, h.lockTime, houtpoints.trans h.outpoints, ?_⟩
  intro i hi input hinput
  rw [hdigest]
  simp only [signInput, List.getElem?_modify] at hinput
  obtain ⟨before, hbefore, rfl⟩ := Option.map_eq_some_iff.mp hinput
  by_cases hin : n = i
  · subst hin
    simp only [if_true]
  · simp only [if_neg hin]
    exact h.authorizations i (by omega) before hbefore

theorem signInputs_spec (tx : Transaction) :
    Signed H wallet senderLock tx tx.inputs.length (signInputs H wallet senderLock tx) := by
  have hrange : ∀ n, Signed H wallet senderLock tx n ((List.range n).foldl (signInput H wallet senderLock) tx) := by
    intro n
    induction n with
    | zero => exact ⟨rfl, rfl, rfl, rfl, fun i hi => absurd hi (Nat.not_lt_zero i)⟩
    | succ n ih =>
      rw [List.range_succ, List.foldl_append]
      exact ih.sign
  exact hrange tx.inputs.length

end

/-! ## The checks -/

namespace Transaction

theorem sumOutputs_of_lt {os : List TxOut} : ∀ {total : UInt64}, total.toNat + outputSum os < 2 ^ 64 →
    ∃ r, sumOutputs total os = .ok r := by
  induction os with
  | nil => exact fun _ => ⟨_, rfl⟩
  | cons o os ih =>
    intro total h
    have hsum : outputSum (o :: os) = o.value.toNat + outputSum os := List.sum_cons
    have hadd := checkedAdd_of_lt (show total.toNat + o.value.toNat < 2 ^ 64 by omega)
    have hval := checkedAdd_eq_some hadd
    rw [sumOutputs, hadd]
    exact ih (by omega)

theorem duplicateInput_of_nodup {is : List TxIn} : ∀ {seen : List OutPoint}, (is.map TxIn.previousOutput).Nodup →
    (∀ i ∈ is, i.previousOutput ∉ seen) → duplicateInput seen is = .ok () := by
  induction is with
  | nil => exact fun _ _ => rfl
  | cons i is ih =>
    intro seen hnodup hseen
    rw [List.map_cons, List.nodup_cons] at hnodup
    rw [duplicateInput, if_neg (hseen i List.mem_cons_self)]
    refine ih hnodup.2 fun j hj hmem => ?_
    rcases List.mem_cons.mp hmem with heq | hmem
    · exact hnodup.1 (heq ▸ List.mem_map_of_mem hj)
    · exact hseen j (List.mem_cons_of_mem _ hj) hmem

/-- A transaction with inputs, each once, and outputs, whose sum fits, is valid exactly when no
    output is dust. -/
theorem validateStateless_iff_dust {t : Transaction} (hversion : t.version = transactionVersion1) (hin : t.inputs ≠ [])
    (hout : t.outputs ≠ []) (hsum : outputSum t.outputs < 2 ^ 64) (hnodup : (t.inputs.map TxIn.previousOutput).Nodup) :
    t.validateStateless = .ok () ↔ ∀ o ∈ t.outputs, o.isOpReturn = false → dustThreshold ≤ o.value := by
  have h0 : (0 : UInt64).toNat = 0 := rfl
  obtain ⟨r, hr⟩ : ∃ r, t.totalOutputQuanta = .ok r := sumOutputs_of_lt (by omega)
  have hdup : duplicateInput [] t.inputs = .ok () := duplicateInput_of_nodup hnodup (by simp)
  have hstart : t.validateStateless = (do
      dustCheck t
      let _ ← totalOutputQuanta t
      duplicateInput [] t.inputs) := by
    rw [validateStateless, if_neg (by simpa using hversion), if_neg (by simpa using hin), if_neg (by simpa using hout)]
  rw [hstart, hr, hdup, dustCheck]
  by_cases hdust : t.outputs.any (fun o => !o.isOpReturn && o.value < dustThreshold) = true
  · rw [if_pos hdust]
    obtain ⟨o, ho, hbad⟩ := List.any_eq_true.mp hdust
    simp only [Bool.and_eq_true, Bool.not_eq_true', decide_eq_true_eq] at hbad
    constructor
    · intro h
      cases h
    · intro h
      exact absurd (h o ho hbad.1) (UInt64.not_le.mpr hbad.2)
  · rw [if_neg hdust]
    refine ⟨fun _ o ho hplain => ?_, fun _ => rfl⟩
    by_contra hbad
    refine hdust (List.any_eq_true.mpr ⟨o, ho, ?_⟩)
    simpa [hplain] using UInt64.not_le.mp hbad

end Transaction

/-- A payment that the ledger takes for `fee`, where no output stands under its identifier yet. -/
structure ValidPayment (H : Hasher) (verifyStrict : VerifyStrict) (s : UtxoSet) (height fee : UInt64) (tx : Transaction) :
    Prop where
  stateless : tx.validateStateless = .ok ()
  scripts : ∀ i input e, tx.inputs[i]? = some input → s.entries[input.previousOutput]? = some e →
    ScriptEngine.new.execute H verifyStrict ⟨tx.computeSighash H i e.output.lockingCondition, height⟩ input.authorization
      e.output.lockingCondition = .ok true
  applies : (∀ o ∈ tx.outpoints H, s.entries[o]? = none) → ∃ s', s.applyTransaction H tx height = (s', .ok fee)

theorem p2pkh_not_opReturn (addressHash : Hash256) (value : UInt64) :
    (⟨value, buildP2pkhLockingScript addressHash⟩ : TxOut).isOpReturn = false := by
  rw [TxOut.isOpReturn, buildP2pkhLockingScript_eq]
  rfl

/-- The outputs: the amount, and what is over, if anything is. -/
theorem transferOutputs_spec {amount accumulated totalNeeded : UInt64} (recipient sender : Hash256)
    (hle : totalNeeded ≤ accumulated) (hamount : dustThreshold ≤ amount) :
    let outputs := transferOutputs amount accumulated totalNeeded (buildP2pkhLockingScript recipient)
      (buildP2pkhLockingScript sender)
    outputs ≠ [] ∧ outputs.length ≤ 2 ^ 32 ∧
      Transaction.outputSum outputs = amount.toNat + (accumulated.toNat - totalNeeded.toNat) ∧
      ((∀ o ∈ outputs, o.isOpReturn = false → dustThreshold ≤ o.value) ↔
        accumulated.toNat - totalNeeded.toNat = 0 ∨ 500 ≤ accumulated.toNat - totalNeeded.toNat) := by
  intro outputs
  have hnat := UInt64.le_iff_toNat_le.mp hle
  have hsub := UInt64.toNat_sub_of_le _ _ hle
  have hdust : dustThreshold.toNat = 500 := rfl
  by_cases hsurplus : accumulated > totalNeeded
  · have hgt := UInt64.lt_iff_toNat_lt.mp hsurplus
    have houtputs : outputs = [⟨amount, buildP2pkhLockingScript recipient⟩,
      ⟨accumulated - totalNeeded, buildP2pkhLockingScript sender⟩] := if_pos hsurplus
    rw [houtputs]
    refine ⟨List.cons_ne_nil _ _, (by decide : 2 ≤ 2 ^ 32), ?_, ?_⟩
    · simp [Transaction.outputSum, hsub]
    · have hchange : dustThreshold ≤ accumulated - totalNeeded ↔ 500 ≤ accumulated.toNat - totalNeeded.toNat := by
        rw [UInt64.le_iff_toNat_le, hsub, hdust]
      simp [p2pkh_not_opReturn, hamount, hchange]
      omega
  · have heq : accumulated.toNat = totalNeeded.toNat := by
      have := UInt64.le_iff_toNat_le.mp (UInt64.not_lt.mp hsurplus)
      omega
    have houtputs : outputs = [⟨amount, buildP2pkhLockingScript recipient⟩] := if_neg hsurplus
    rw [houtputs]
    refine ⟨List.cons_ne_nil _ _, (by decide : 1 ≤ 2 ^ 32), ?_, ?_⟩
    · simp [Transaction.outputSum, heq]
    · simp [hamount, heq]

section
variable {H : Hasher} {verifyStrict : VerifyStrict}

/-- What is built: the fewest of the largest outputs that cover what is needed are spent, and
    signed for. -/
theorem buildTransfer_ok (wallet : Wallet verifyStrict) (recipient : Hash256) {coins : List Coin} {amount fee : UInt64}
    (hamount : dustThreshold ≤ amount) (hfunds : amount.toNat + fee.toNat ≤ (coins.map Coin.value).sum)
    (hfits : (coins.map Coin.value).sum < 2 ^ 64) : ∃ k accumulated,
      Fewest (amount.toNat + fee.toNat) ((coins.map Coin.value).insertionSort (· ≥ ·)) k ∧
        accumulated.toNat = (((coins.map Coin.value).insertionSort (· ≥ ·)).take k).sum ∧
        (amount + fee).toNat = amount.toNat + fee.toNat ∧
        buildTransfer H wallet (shownCoins coins) amount fee recipient = .ok (signInputs H wallet
          (wallet.p2pkhLockingScript H) ⟨transactionVersion1, ((largestFirst coins).take k).map fun c => TxIn.new c.1 [],
            transferOutputs amount accumulated (amount + fee) (buildP2pkhLockingScript recipient)
              (wallet.p2pkhLockingScript H), 0⟩) := by
  have hdust : 500 ≤ amount.toNat := UInt64.le_iff_toNat_le.mp hamount
  have hneeded := checkedAdd_of_lt (show amount.toNat + fee.toNat < 2 ^ 64 by omega)
  have hnat := checkedAdd_eq_some hneeded
  have hperm : (largestFirst coins).Perm coins := List.perm_insertionSort _ _
  have hsum : ((largestFirst coins).map Coin.value).sum = (coins.map Coin.value).sum := (hperm.map _).sum_eq
  have h0 : (0 : UInt64).toNat = 0 := rfl
  obtain ⟨k, hselected, haccumulated, hfewest⟩ := @selectUtxos_fewest (amount + fee) (shownCoins (largestFirst coins)) 0
    (by omega) (by rw [quanta_shownCoins]; omega) (by rw [quanta_shownCoins]; omega)
  rw [quanta_shownCoins, h0, Nat.sub_zero, hnat, value_largestFirst] at hfewest
  rw [quanta_shownCoins, h0, Nat.zero_add, value_largestFirst] at haccumulated
  have hcovers := hfewest.covers
  generalize hacc : (selectUtxos (amount + fee) 0 (shownCoins (largestFirst coins))).2 = accumulated at haccumulated
  have hle : amount + fee ≤ accumulated := UInt64.le_iff_toNat_le.mpr (by omega)
  have hinputs : transferInputs (selectUtxos (amount + fee) 0 (shownCoins (largestFirst coins))).1 =
      .ok (((largestFirst coins).take k).map fun c => TxIn.new c.1 []) := by
    rw [hselected, shownCoins, ← List.map_take]
    exact transferInputs_shown _
  refine ⟨k, accumulated, hfewest, haccumulated, hnat, ?_⟩
  simp only [buildTransfer, hneeded, shownCoins_largestFirst, hacc, UInt64.not_lt.mpr hle, if_false, hinputs]

/-- A signed transaction that passes the stateless checks, spends unspent outputs locked to
    the wallet and puts out all of their value but the fee. -/
theorem Signed.validPayment {wallet : Wallet verifyStrict} {unsigned tx : Transaction} {height fee : UInt64} {s : UtxoSet}
    {spent : List Coin} (h : Signed H wallet (wallet.p2pkhLockingScript H) unsigned unsigned.inputs.length tx)
    (hspent : unsigned.inputs.map TxIn.previousOutput = spent.map (·.1)) (hheld : ∀ c ∈ spent, s.entries[c.1]? = some c.2)
    (hlock : ∀ c ∈ spent, c.2.output.lockingCondition = wallet.p2pkhLockingScript H)
    (hstateless : tx.validateStateless = .ok ()) (hfew : tx.outputs.length ≤ 2 ^ 32)
    (hvalue : UtxoSet.valueSum (spent.map (·.2)) = Transaction.outputSum tx.outputs + fee.toNat)
    (hfits : UtxoSet.valueSum (spent.map (·.2)) < 2 ^ 64) : ValidPayment H verifyStrict s height fee tx := by
  have houtpoints : tx.inputs.map TxIn.previousOutput = spent.map (·.1) := h.outpoints.trans hspent
  refine ⟨hstateless, ?_, ?_⟩
  · intro i input e hinput he
    have hmem : input.previousOutput ∈ spent.map (·.1) := by
      rw [← houtpoints]
      exact List.mem_map_of_mem (List.mem_of_getElem? hinput)
    obtain ⟨c, hc, hcoin⟩ := List.mem_map.mp hmem
    have hentry : e = c.2 := by
      have := hheld c hc
      rw [hcoin, he] at this
      exact Option.some.inj this
    have hi : i < unsigned.inputs.length := by
      have hlen := congrArg List.length h.outpoints
      rw [List.length_map, List.length_map] at hlen
      have := (List.getElem?_eq_some_iff.mp hinput).1
      omega
    rw [h.authorizations i hi input hinput, hentry, hlock c hc]
    exact ScriptEngine.execute_unlocked wallet.keySize (wallet.signatureSize _) (wallet.verifies _)
  · intro hfresh
    have hheldAt : tx.inputs.map (fun i => s.entries[i.previousOutput]?) = (spent.map (·.2)).map some := by
      have hmap : tx.inputs.map (fun i => s.entries[i.previousOutput]?) =
          (tx.inputs.map TxIn.previousOutput).map fun o => s.entries[o]? := by rw [List.map_map]; rfl
      rw [hmap, houtpoints, List.map_map, List.map_map]
      exact List.map_congr_left hheld
    obtain ⟨r, hr⟩ : ∃ r, tx.totalOutputQuanta = .ok r :=
      Transaction.sumOutputs_of_lt (show (0 : UInt64).toNat + Transaction.outputSum tx.outputs < 2 ^ 64 by
        have h0 : (0 : UInt64).toNat = 0 := rfl
        omega)
    have hrval := Transaction.totalOutputQuanta_ok hr
    obtain ⟨s', paid, hap, hpaid⟩ := UtxoSet.applyTransaction_of_fresh height hstateless hheldAt (by omega) hr (by omega)
      hfew hfresh
    have hfee : paid = fee := UInt64.toNat_inj.mp (by omega)
    exact ⟨s', hfee ▸ hap⟩

/-- For every wallet, every list of distinct unspent outputs that are locked to it, every
    amount from the dust threshold on and every fee that they cover: the payment is built,
    and it is valid exactly when what the fewest of the largest outputs have over is nothing,
    or at least the dust threshold. -/
theorem transfer_valid_iff (wallet : Wallet verifyStrict) (recipient : Hash256) (height : UInt64) {s : UtxoSet}
    {coins : List Coin} {amount fee : UInt64} (hheld : ∀ c ∈ coins, s.entries[c.1]? = some c.2)
    (hdistinct : (coins.map (·.1)).Nodup) (hlock : ∀ c ∈ coins, c.2.output.lockingCondition = wallet.p2pkhLockingScript H)
    (hamount : dustThreshold ≤ amount) (hfunds : amount.toNat + fee.toNat ≤ (coins.map Coin.value).sum)
    (hfits : (coins.map Coin.value).sum < 2 ^ 64) :
    ∃ tx, buildTransfer H wallet (shownCoins coins) amount fee recipient = .ok tx ∧
      (ValidPayment H verifyStrict s height fee tx ↔
        ∀ k, Fewest (amount.toNat + fee.toNat) ((coins.map Coin.value).insertionSort (· ≥ ·)) k →
          let surplus := (((coins.map Coin.value).insertionSort (· ≥ ·)).take k).sum - (amount.toNat + fee.toNat)
          surplus = 0 ∨ 500 ≤ surplus) := by
  obtain ⟨k, accumulated, hfewest, haccumulated, hnat, hbuilt⟩ := @buildTransfer_ok H _ wallet recipient _ _ _ hamount
    hfunds hfits
  refine ⟨_, hbuilt, ?_⟩
  have hsigned := @signInputs_spec H _ wallet (wallet.p2pkhLockingScript H) ⟨transactionVersion1,
    ((largestFirst coins).take k).map fun c => TxIn.new c.1 [], transferOutputs amount accumulated (amount + fee)
      (buildP2pkhLockingScript recipient) (wallet.p2pkhLockingScript H), 0⟩
  generalize signInputs H wallet _ _ = tx at hsigned
  have hperm : (largestFirst coins).Perm coins := List.perm_insertionSort _ _
  have hsub : ∀ c ∈ (largestFirst coins).take k, c ∈ coins := fun c hc => hperm.mem_iff.mp (List.mem_of_mem_take hc)
  have hvalue : UtxoSet.valueSum (((largestFirst coins).take k).map (·.2)) = accumulated.toNat := by
    rw [haccumulated, ← value_largestFirst, ← List.map_take, UtxoSet.valueSum, List.map_map]
    rfl
  have hdust : 500 ≤ amount.toNat := UInt64.le_iff_toNat_le.mp hamount
  have hcovers := hfewest.covers
  have hle : amount + fee ≤ accumulated := UInt64.le_iff_toNat_le.mpr (by omega)
  have hspent : ((((largestFirst coins).take k).map fun c => TxIn.new c.1 []).map TxIn.previousOutput) =
      ((largestFirst coins).take k).map (·.1) := by
    rw [List.map_map]
    rfl
  have houtpoints : tx.inputs.map TxIn.previousOutput = ((largestFirst coins).take k).map (·.1) :=
    hsigned.outpoints.trans hspent
  have hinputs : tx.inputs ≠ [] := by
    intro hnil
    rw [hnil] at houtpoints
    have hempty : (largestFirst coins).take k = [] := List.map_eq_nil_iff.mp houtpoints.symm
    have hzero : accumulated.toNat = 0 := by rw [← hvalue, hempty]; rfl
    omega
  have hnodup : (tx.inputs.map TxIn.previousOutput).Nodup := by
    rw [houtpoints]
    exact ((hperm.map _).nodup_iff.mpr hdistinct).sublist ((List.take_sublist k _).map _)
  obtain ⟨hne, hfew, hout, hcheck⟩ := transferOutputs_spec recipient (H wallet.publicKey) hle hamount
  have houtputs : tx.outputs = transferOutputs amount accumulated (amount + fee) (buildP2pkhLockingScript recipient)
    (buildP2pkhLockingScript (H wallet.publicKey)) := hsigned.outputs
  rw [← houtputs] at hne hfew hout hcheck
  have hlt := accumulated.toNat_lt
  have hvalid := Transaction.validateStateless_iff_dust hsigned.version hinputs hne (by omega) hnodup
  rw [hcheck, hnat, haccumulated] at hvalid
  constructor
  · intro hpayment k' hk'
    rw [hk'.unique hfewest]
    exact hvalid.mp hpayment.stateless
  · intro hcond
    exact hsigned.validPayment hspent (fun c hc => hheld c (hsub c hc)) (fun c hc => hlock c (hsub c hc))
      (hvalid.mpr (hcond k hfewest)) hfew (by omega) (by omega)

end

/-! ### Two outputs of 700 and 900 -/

def walletKey : Bytes := beBytes 32 0x8a88e3dd7409f195fd52db2d3cba5d72ca6709bf1d94121bf3748801b40f6f5c

/-- Ed25519 under that key on what the samples ask. -/
def sampleSign (digest : Hash256) : Bytes :=
  if digest.bytes = beBytes 32 0x2e7571e35d1ffc6505646cc8bb3f69f161f7af422d5fdb00096dad6f51b02474 then
    beBytes 64 0x282de4821723385cd0d965e6d35d884474f63c04231a8f4814b4d59ba2af4f9a08321a6ea53e0983330afe8434a183564f94b6e2215328c8e4da85ea5813f80f
  else if digest.bytes = beBytes 32 0xe209519e8d2cbe8eddb350f7694a9cf0e2cdde83ff1c9a3a1a907dfabbe3ad15 then
    beBytes 64 0x4610930e1f361b2405d48744773347c47f0c1d1eb9f4db76c9ce208856679c6f51f4aaef0b5734784694c302bb6174f295b99dd111c213cec5a6c4dd1836e005
  else if digest.bytes = beBytes 32 0x48a57fdb1ed3cb00d22de704c63e766e79a17c9c28853b7ffdd20dbff05bc4d6 then
    beBytes 64 0x5897675424c5086b8bb3eaf1cb5e039a05f3f99b01aeec541a0e2790d7058b85a3df145d2bc4726d4175450951cdddffcf569e4f8a5b8a83a8f935655446dc04
  else
    beBytes 64 0xd3156a908b2b69e6a476abeb71e040a68018f882865f586504d5f3065117c2669c4ecb1e87ed973da86d6728a8271c58476aea685c3002d619ea5f9abb699601

def sampleVerify : VerifyStrict := fun key digest signature => key == walletKey && signature == sampleSign digest

def sampleWallet : Wallet sampleVerify where
  publicKey := walletKey
  sign := sampleSign
  keySize := by simp [walletKey]
  signatureSize := fun digest => by unfold sampleSign; split_ifs <;> simp
  verifies := fun digest => by simp [sampleVerify]

theorem sampleTxid_length : (List.replicate 32 (1 : UInt8)).length = 32 := List.length_replicate

def sampleCoin (index : UInt32) (value : UInt64) : Coin :=
  (⟨⟨List.replicate 32 1, sampleTxid_length⟩, index⟩, ⟨⟨value, sampleWallet.p2pkhLockingScript Blake3.digest⟩, 1, false⟩)

def sampleCoins : List Coin := [sampleCoin 0 700, sampleCoin 1 900]

def coinUtxos : UtxoSet := ⟨sampleCoins.foldl (fun m c => m.insert c.1 c.2) ∅⟩

def sampleRecipient : Hash256 := ⟨List.replicate 32 9, by simp⟩

set_option maxRecDepth 10000 in
/-- 1000 with a fee of 100 leave 500. -/
theorem transfer_valid_sample : ∃ tx,
    buildTransfer Blake3.digest sampleWallet (shownCoins sampleCoins) 1000 100 sampleRecipient = .ok tx ∧
      ValidPayment Blake3.digest sampleVerify coinUtxos 7 100 tx := by
  obtain ⟨tx, htx, hvalid⟩ := transfer_valid_iff (H := Blake3.digest) sampleWallet sampleRecipient 7 (s := coinUtxos)
    (by decide +kernel) (by decide +kernel) (by decide +kernel) (by decide : dustThreshold ≤ 1000)
    (show (1000 : UInt64).toNat + (100 : UInt64).toNat ≤ (sampleCoins.map Coin.value).sum by decide +kernel) (by decide +kernel)
  refine ⟨tx, htx, hvalid.mpr fun k hk => ?_⟩
  have htwo : Fewest 1100 [900, 700] 2 := ⟨by decide, by decide⟩
  have hvalues : (sampleCoins.map Coin.value).insertionSort (· ≥ ·) = [900, 700] := by decide +kernel
  rw [hvalues] at hk ⊢
  rw [hk.unique htwo]
  decide

set_option maxRecDepth 10000 in
/-- 1000 with a fee of 101 leave 499, and the payment is refused for its change. -/
theorem dust_change_refused : ¬ ∀ (wallet : Wallet sampleVerify) (recipient : Hash256) (height : UInt64) (s : UtxoSet)
    (coins : List Coin) (amount fee : UInt64), (∀ c ∈ coins, s.entries[c.1]? = some c.2) → (coins.map (·.1)).Nodup →
    (∀ c ∈ coins, c.2.output.lockingCondition = wallet.p2pkhLockingScript Blake3.digest) → dustThreshold ≤ amount →
    amount.toNat + fee.toNat ≤ (coins.map Coin.value).sum → (coins.map Coin.value).sum < 2 ^ 64 →
    ∃ tx, buildTransfer Blake3.digest wallet (shownCoins coins) amount fee recipient = .ok tx ∧
      ValidPayment Blake3.digest sampleVerify s height fee tx := by
  intro h
  obtain ⟨tx, htx, hvalid⟩ := h sampleWallet sampleRecipient 7 coinUtxos sampleCoins 1000 101 (by decide +kernel)
    (by decide +kernel) (by decide +kernel) (by decide) (by decide +kernel) (by decide +kernel)
  have hrun : (buildTransfer Blake3.digest sampleWallet (shownCoins sampleCoins) 1000 101 sampleRecipient).toOption.map
    Transaction.validateStateless = some (.error .zeroOutputValue) := by decide +kernel
  rw [htx] at hrun
  have hrefused := Option.some.inj hrun
  rw [hvalid.stateless] at hrefused
  cases hrefused

end Scytale
