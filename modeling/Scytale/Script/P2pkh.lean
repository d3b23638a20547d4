/-
  Scytale.Script.P2pkh — paying to the hash of a key
  (apps/scytale-cli/src/wallet.rs, build_p2pkh_locking_script, build_p2pkh_unlocking_script).

  The unlocking script is any program: it shares the stack and the budget with
  `OP_DUP OP_BLAKE3 <hash> OP_EQUALVERIFY OP_CHECKSIG`.
  - `executeScript_p2pkh`: what the five operations do to a machine.
  - `p2pkh_iff`: the pair of scripts passes exactly when the unlocking script alone succeeds
    with five operations left over a key with that hash and, under it, a signature by it.
  - `execute_unlocked`: the wallet's unlocking script does, over its own signature.
-/
import Scytale.Script.Bounds
import Scytale.Script.Builder

namespace Scytale

open Lib

def buildP2pkhLockingScript (addressHash : Hash256) : Bytes :=
  (((((ScriptBuilder.new.pushOpcode .opDup).pushOpcode .opBlake3).pushData addressHash.bytes).pushOpcode
    .opEqualVerify).pushOpcode .opCheckSig).build

def buildP2pkhUnlockingScript (sig pubkey : Bytes) : Bytes := ((ScriptBuilder.new.pushData sig).pushData pubkey).build

theorem buildP2pkhLockingScript_eq (addressHash : Hash256) : buildP2pkhLockingScript addressHash =
    0x73 :: 0xa0 :: (ScriptBuilder.pushBytes addressHash.bytes ++ [0x88, 0xac]) := by
  simp only [buildP2pkhLockingScript, ScriptBuilder.build, ScriptBuilder.pushOpcode, ScriptBuilder.pushData_bytes,
    List.append_assoc]
  rfl

namespace ScriptEngine

variable {eng : ScriptEngine} {H : Hasher} {verifyStrict : VerifyStrict} {ctx : ScriptContext}

theorem run_opcode_eq_ok {op : UInt8} {opcode : OpCode} (hplain : isPlain op = true) (h : OpCode.fromByte op = some opcode)
    {m m' : Machine} {rest : Bytes} : eng.run H verifyStrict ctx ⟨[], m, op :: rest⟩ = .ok m' ↔
      m.budget ≠ 0 ∧ ∃ s, executeOpcode H verifyStrict ctx opcode m.stack = .ok s ∧
        eng.run H verifyStrict ctx ⟨[], ⟨s, m.budget - 1⟩, rest⟩ = .ok m' := by
  rw [run_opcode hplain h]
  simp only [bind_eq_ok, charge_eq_ok]
  constructor
  · rintro ⟨m₁, ⟨hbudget, rfl⟩, s, hs, hrest⟩
    exact ⟨hbudget, s, hs, hrest⟩
  · rintro ⟨hbudget, s, hs, hrest⟩
    exact ⟨_, ⟨hbudget, rfl⟩, s, hs, hrest⟩

/-! ## The operations -/

theorem opDup_eq_ok {top : Bytes} {s s' : ScriptStack} (hroom : s.length + 1 < maxStackDepth) (htop : top.length ≤ maxItemSize) :
    executeOpcode H verifyStrict ctx .opDup (top :: s) = .ok s' ↔ s' = top :: top :: s :=
  push_eq_ok.trans (and_iff_right ⟨hroom, htop⟩)

theorem opBlake3_eq_ok {item : Bytes} {s s' : ScriptStack} (hroom : s.length < maxStackDepth) :
    executeOpcode H verifyStrict ctx .opBlake3 (item :: s) = .ok s' ↔ s' = (H item).bytes :: s := by
  have hdigest : (H item).bytes.length ≤ maxItemSize := by
    rw [(H item).size]
    decide
  exact push_eq_ok.trans (and_iff_right ⟨hroom, hdigest⟩)

theorem opEqualVerify_eq_ok {a b : Bytes} {s s' : ScriptStack} :
    executeOpcode H verifyStrict ctx .opEqualVerify (b :: a :: s) = .ok s' ↔ a = b ∧ s' = s := by
  show (if a ≠ b then throw ScriptError.equalVerifyFailed else (.ok s : Except ScriptError ScriptStack)) = _ ↔ _
  by_cases heq : a = b
  · simp [heq, eq_comm]
  · simp [heq, throw, throwThe, MonadExceptOf.throw]

theorem opCheckSig_eq_ok {pubkey : Bytes} {s s' : ScriptStack} (hroom : s.length ≤ maxStackDepth) :
    executeOpcode H verifyStrict ctx .opCheckSig (pubkey :: s) = .ok s' ↔
      ∃ sig rest, s = sig :: rest ∧ s' = (if verifySignature verifyStrict ctx pubkey sig then [1] else []) :: rest := by
  cases s with
  | nil => simp [executeOpcode, ScriptStack.pop, bind_eq_ok]
  | cons sig rest =>
    have hpush : executeOpcode H verifyStrict ctx .opCheckSig (pubkey :: sig :: rest) =
      ScriptStack.push rest (if verifySignature verifyStrict ctx pubkey sig then [1] else []) := rfl
    rw [hpush, push_eq_ok, and_iff_right ⟨hroom, by split <;> decide⟩]
    simp

/-- What the five operations do, where the stack has room for them. -/
theorem executeScript_p2pkh {m m' : Machine} (hm : m.Within) (addressHash : Hash256) :
    eng.executeScript H verifyStrict ctx (buildP2pkhLockingScript addressHash) m = .ok m' ↔
      5 ≤ m.budget ∧ ∃ pubkey sig rest, m.stack = pubkey :: sig :: rest ∧ H pubkey = addressHash ∧
        m' = ⟨(if verifySignature verifyStrict ctx pubkey sig then [1] else []) :: rest, m.budget - 5⟩ := by
  obtain ⟨stack, budget⟩ := m
  have hdup : isPlain 0x73 = true ∧ OpCode.fromByte 0x73 = some .opDup := by decide
  have hblake3 : isPlain 0xa0 = true ∧ OpCode.fromByte 0xa0 = some .opBlake3 := by decide
  have hequal : isPlain 0x88 = true ∧ OpCode.fromByte 0x88 = some .opEqualVerify := by decide
  have hcheck : isPlain 0xac = true ∧ OpCode.fromByte 0xac = some .opCheckSig := by decide
  rw [executeScript_eq_run, buildP2pkhLockingScript_eq, run_opcode_eq_ok hdup.1 hdup.2]
  cases stack with
  | nil =>
    constructor
    · rintro ⟨-, s, hs, -⟩
      cases hs
    · rintro ⟨-, pubkey, sig, rest, ⟨⟩, -⟩
  | cons pubkey below =>
    have hroom : maxStackDepth = 1024 ∧ maxItemSize = 520 ∧ ScriptStack.maxPush = 255 := ⟨rfl, rfl, rfl⟩
    have hdepth : below.length + 1 + 2 * budget ≤ 512 := hm.depth
    have hduped : (pubkey :: below).length < maxStackDepth := by
      rw [List.length_cons]
      omega
    have hkey : pubkey.length ≤ maxItemSize := Nat.le_trans (hm.items pubkey List.mem_cons_self) (by decide)
    have hhash : addressHash.bytes.take 255 = addressHash.bytes :=
      List.take_of_length_le (by rw [addressHash.size]; decide)
    simp only [opDup_eq_ok hduped hkey, exists_eq_left, run_opcode_eq_ok hblake3.1 hblake3.2, opBlake3_eq_ok hduped,
      run_pushBytes, hhash, bind_eq_ok, pushItem_eq_ok, run_opcode_eq_ok hequal.1 hequal.2,
      run_opcode_eq_ok hcheck.1 hcheck.2]
    constructor
    · rintro ⟨h1, h2, m₁, ⟨⟨h3, -⟩, rfl⟩, h4, s, hs, h5, s', hs', hrun⟩
      obtain ⟨heq, rfl⟩ := opEqualVerify_eq_ok.mp hs
      obtain ⟨sig, rest, rfl, rfl⟩ := (opCheckSig_eq_ok (by omega)).mp hs'
      rw [run_nil] at hrun
      cases hrun
      simp only at h4 h5
      exact ⟨by omega, pubkey, sig, rest, rfl, Hash256.ext_bytes heq, rfl⟩
    · rintro ⟨hbudget, pubkey', sig, rest, hstack, heq, rfl⟩
      cases hstack
      have hequals : (H pubkey).bytes = addressHash.bytes := by rw [heq]
      refine ⟨by omega, by omega, _, ⟨⟨by omega, ?_, ?_⟩, rfl⟩, show budget - 3 ≠ 0 by omega, _,
        opEqualVerify_eq_ok.mpr ⟨hequals, rfl⟩, show budget - 3 - 1 ≠ 0 by omega, _,
        (opCheckSig_eq_ok (by omega)).mpr ⟨sig, rest, rfl, rfl⟩, ?_⟩
      · rw [List.length_cons, List.length_cons]
        omega
      · rw [addressHash.size]
        decide
      · rw [run_nil]
        rfl

/-! ## The two scripts -/

theorem verifySignature_eq_true {pubkey sig : Bytes} : verifySignature verifyStrict ctx pubkey sig = true ↔
    pubkey.length = 32 ∧ sig.length = 64 ∧ verifyStrict pubkey ctx.sighash sig = true := by
  simp [verifySignature, and_assoc]

/-- Over a key with the hash and a signature by it the pair of scripts passes. -/
theorem execute_p2pkh_of {unlockingScript pubkey sig : Bytes} {addressHash : Hash256} {m : Machine} {rest : ScriptStack}
    (hm : ScriptEngine.new.executeScript H verifyStrict ctx unlockingScript ⟨[], defaultMaxOpsBudget⟩ = .ok m)
    (hbudget : 5 ≤ m.budget) (hstack : m.stack = pubkey :: sig :: rest) (heq : H pubkey = addressHash)
    (hsig : verifySignature verifyStrict ctx pubkey sig = true) :
    ScriptEngine.new.execute H verifyStrict ctx unlockingScript (buildP2pkhLockingScript addressHash) = .ok true := by
  have hwithin : m.Within := ((executeScript_bounded unlockingScript start_within).of_ok hm).1
  simp only [execute, bind_eq_ok]
  refine ⟨m, hm, _, (executeScript_p2pkh hwithin addressHash).mpr ⟨hbudget, pubkey, sig, rest, hstack, heq, rfl⟩, ?_⟩
  rw [hsig]
  rfl

/-- For the default engine, every unlocking script, hash and context: the pair of scripts
    passes exactly when the unlocking script alone succeeds with five operations left and
    leaves, on top of the stack, a key of 32 bytes with the hash and under it a signature
    that is valid for it over the context's digest. -/
theorem p2pkh_iff (unlockingScript : Bytes) (addressHash : Hash256) :
    ScriptEngine.new.execute H verifyStrict ctx unlockingScript (buildP2pkhLockingScript addressHash) = .ok true ↔
      ∃ m pubkey sig rest,
        ScriptEngine.new.executeScript H verifyStrict ctx unlockingScript ⟨[], defaultMaxOpsBudget⟩ = .ok m ∧
          5 ≤ m.budget ∧ m.stack = pubkey :: sig :: rest ∧ pubkey.length = 32 ∧ H pubkey = addressHash ∧
          sig.length = 64 ∧ verifyStrict pubkey ctx.sighash sig = true := by
  constructor
  · intro h
    simp only [execute, bind_eq_ok] at h
    obtain ⟨m, hm, m', hm', hfinal⟩ := h
    have hwithin : m.Within := ((executeScript_bounded unlockingScript start_within).of_ok hm).1
    obtain ⟨hbudget, pubkey, sig, rest, hstack, heq, rfl⟩ := (executeScript_p2pkh hwithin addressHash).mp hm'
    by_cases hsig : verifySignature verifyStrict ctx pubkey sig = true
    · obtain ⟨hkey, hlen, hverify⟩ := verifySignature_eq_true.mp hsig
      exact ⟨m, pubkey, sig, rest, hm, hbudget, hstack, hkey, heq, hlen, hverify⟩
    · -- the empty item is not true
      simp only [hsig] at hfinal
      cases hfinal
  · rintro ⟨m, pubkey, sig, rest, hm, hbudget, hstack, hkey, heq, hlen, hverify⟩
    exact execute_p2pkh_of hm hbudget hstack heq (verifySignature_eq_true.mpr ⟨hkey, hlen, hverify⟩)

/-- The wallet's unlocking script over a signature by its key. -/
theorem execute_unlocked {pubkey sig : Bytes} (hkey : pubkey.length = 32) (hlen : sig.length = 64)
    (hverify : verifyStrict pubkey ctx.sighash sig = true) :
    ScriptEngine.new.execute H verifyStrict ctx (buildP2pkhUnlockingScript sig pubkey) (buildP2pkhLockingScript (H pubkey)) =
      .ok true := by
  have hpushes : ScriptEngine.new.executeScript H verifyStrict ctx (Push.script [.data sig, .data pubkey])
      ⟨[], defaultMaxOpsBudget⟩ = .ok ⟨[pubkey, sig], defaultMaxOpsBudget - 2⟩ := by
    have hroom : 2 ≤ defaultMaxOpsBudget ∧ 0 + 2 ≤ maxStackDepth := by decide
    rw [executeScript_pushes]
    refine (Push.foldlM_pushItem [.data sig, .data pubkey] ?_).mpr ⟨.inr hroom.2, ?_⟩
    · exact hroom.1
    have hsig : sig.take 255 = sig := List.take_of_length_le (by omega)
    have hpk : pubkey.take 255 = pubkey := List.take_of_length_le (by omega)
    simp [Push.item, hsig, hpk]
  have hscript : buildP2pkhUnlockingScript sig pubkey = Push.script [.data sig, .data pubkey] := rfl
  rw [hscript]
  exact execute_p2pkh_of hpushes (show 5 ≤ defaultMaxOpsBudget - 2 by decide) rfl rfl
    (verifySignature_eq_true.mpr ⟨hkey, hlen, hverify⟩)

end ScriptEngine

end Scytale
