/-
  Scytale.Script.HeightLocks — where the height enters a script
  (crates/scytale-script/src/engine.rs, OP_CHECKLOCKTIMEVERIFY).

  The height is compared with an operand of one instruction and read nowhere else. At the
  last height every operand passes, so the run there shows all operands a script reads.
  - `execute_height`: a pair of scripts passes at a height exactly when it passes at the
    last one and every operand read on the way is at most the height.
-/
import Scytale.Script.Engine

namespace Scytale

open Lib

/-- `u64::MAX`. -/
def lastHeight : UInt64 := 0xffffffffffffffff

theorem intOfItem_lt (item : Bytes) (h : item.length ≤ 8) : intOfItem item < 2 ^ 63 := by
  have hlt : leNat item < 2 ^ 64 := by
    calc leNat item < 256 ^ item.reverse.length := byteVal_lt _
      _ ≤ 256 ^ 8 := Nat.pow_le_pow_right (by decide) (by rw [List.length_reverse]; exact h)
  unfold intOfItem
  split <;> omega

theorem popInt_lt {s s' : ScriptStack} {lock : Int} (h : s.popInt = .ok (lock, s')) : lock < 2 ^ 63 := by
  obtain ⟨⟨item, rest⟩, -, h⟩ := bind_eq_ok.mp h
  simp only at h
  split at h
  · cases h
  · rename_i hlen
    cases h
    exact intOfItem_lt item (by omega)

namespace ScriptEngine

/-- The operand a height lock finds on the stack, none when it is negative. -/
def operand (s : ScriptStack) : List Nat :=
  match s.popInt with
  | .ok (lock, _) => if lock < 0 then [] else [lock.toNat]
  | .error _ => []

section
variable (eng : ScriptEngine) (H : Hasher) (verifyStrict : VerifyStrict) (sighash : Hash256)

/-- The operand a round reads. -/
def roundLocks (op : UInt8) (f : Frame) : List Nat :=
  if op = OpCode.OP_CHECKLOCKTIMEVERIFY ∧ f.isActive = true then operand f.machine.stack else []

/-- The operands the loop reads. -/
def loopLocks : Nat → Frame → List Nat
  | _, ⟨_, _, []⟩ => []
  | 0, ⟨_, _, _ :: _⟩ => []
  | fuel + 1, ⟨branchStack, m, op :: script⟩ =>
    roundLocks op ⟨branchStack, m, script⟩ ++
      match eng.round H verifyStrict ⟨sighash, lastHeight⟩ op ⟨branchStack, m, script⟩ with
      | .error _ => []
      | .ok f => loopLocks fuel f

def scriptLocks (script : Bytes) (m : Machine) : List Nat :=
  eng.loopLocks H verifyStrict sighash script.length ⟨[], m, script⟩

/-- The operands an unlocking and a locking script read. -/
def executeLocks (unlockingScript lockingScript : Bytes) : List Nat :=
  eng.scriptLocks H verifyStrict sighash unlockingScript ⟨[], eng.maxOpsBudget⟩ ++
    match eng.executeScript H verifyStrict ⟨sighash, lastHeight⟩ unlockingScript ⟨[], eng.maxOpsBudget⟩ with
    | .error _ => []
    | .ok m => eng.scriptLocks H verifyStrict sighash lockingScript m

end

variable {eng : ScriptEngine} {H : Hasher} {verifyStrict : VerifyStrict} {sighash : Hash256} {height : UInt64}

/-! ## One instruction -/

theorem lock_height (s s' : ScriptStack) :
    executeOpcode H verifyStrict ⟨sighash, height⟩ .opCheckLockTimeVerify s = .ok s' ↔
      executeOpcode H verifyStrict ⟨sighash, lastHeight⟩ .opCheckLockTimeVerify s = .ok s' ∧
        ∀ lock ∈ operand s, lock ≤ height.toNat := by
  have hlast : lastHeight.toNat = 2 ^ 64 - 1 := by decide
  simp only [executeOpcode, operand, bind_eq_ok, Prod.exists]
  cases hpop : s.popInt with
  | error e => simp
  | ok r =>
    obtain ⟨lock, rest⟩ := r
    have hlt := popInt_lt hpop
    by_cases hneg : lock < 0
    · simp [hneg]
    · have hlast : ¬(lastHeight.toNat : Int) < lock := by omega
      by_cases hmet : (height.toNat : Int) < lock
      · simp [hneg, hlast, hmet, throw, throwThe, MonadExceptOf.throw]
      · simp [hneg, hlast, hmet, Int.not_lt.mp hmet]

/-- No other instruction reads the height. -/
theorem executeOpcode_height {opcode : OpCode} (h : opcode ≠ .opCheckLockTimeVerify) (s : ScriptStack) :
    executeOpcode H verifyStrict ⟨sighash, height⟩ opcode s =
      executeOpcode H verifyStrict ⟨sighash, lastHeight⟩ opcode s := by
  cases opcode with
  | opCheckLockTimeVerify => exact absurd rfl h
  | _ => rfl

theorem fromByte_lock {op : UInt8} (h : OpCode.fromByte op = some .opCheckLockTimeVerify) :
    op = OpCode.OP_CHECKLOCKTIMEVERIFY := by
  revert op
  apply byte_forall
  decide +kernel

theorem charge_stack {m m' : Machine} (h : eng.charge m = .ok m') : m'.stack = m.stack := by
  unfold charge at h
  split at h
  · cases h
  · cases h
    rfl

/-! ## Runs -/

theorem round_height (op : UInt8) (f f' : Frame) :
    eng.round H verifyStrict ⟨sighash, height⟩ op f = .ok f' ↔
      eng.round H verifyStrict ⟨sighash, lastHeight⟩ op f = .ok f' ∧ ∀ lock ∈ roundLocks op f, lock ≤ height.toNat := by
  by_cases hlock : op = OpCode.OP_CHECKLOCKTIMEVERIFY ∧ f.isActive = true
  · obtain ⟨rfl, hactive⟩ := hlock
    have hbyte : OpCode.fromByte OpCode.OP_CHECKLOCKTIMEVERIFY = some .opCheckLockTimeVerify := by decide
    have hpush : OpCode.isPushbytes OpCode.OP_CHECKLOCKTIMEVERIFY = false := by decide
    have hround : ∀ height, eng.round H verifyStrict ⟨sighash, height⟩ OpCode.OP_CHECKLOCKTIMEVERIFY f = (do
        let m ← eng.charge f.machine
        let stack ← executeOpcode H verifyStrict ⟨sighash, height⟩ .opCheckLockTimeVerify m.stack
        return { f with machine := { m with stack } }) := by
      intro height
      simp only [round, hpush, hactive, hbyte]
      rfl
    rw [hround, hround, roundLocks, if_pos ⟨rfl, hactive⟩]
    simp only [bind_eq_ok]
    constructor
    · rintro ⟨m, hm, stack, hstack, heq⟩
      obtain ⟨hlast, hle⟩ := (lock_height _ _).mp hstack
      exact ⟨⟨m, hm, stack, hlast, heq⟩, charge_stack hm ▸ hle⟩
    · rintro ⟨⟨m, hm, stack, hlast, heq⟩, hle⟩
      exact ⟨m, hm, stack, (lock_height _ _).mpr ⟨hlast, (charge_stack hm).symm ▸ hle⟩, heq⟩
  · rw [roundLocks, if_neg hlock]
    have hround : eng.round H verifyStrict ⟨sighash, height⟩ op f = eng.round H verifyStrict ⟨sighash, lastHeight⟩ op f := by
      rcases byte_cases op with rfl | rfl | rfl | hpush | rfl | hplain
      · rfl
      · rfl
      · rfl
      · rw [round_pushbytes hpush, round_pushbytes hpush]
      · rfl
      · rw [round_plain hplain, round_plain hplain]
        split
        · rfl
        · rename_i hactive
          have hbyte : OpCode.fromByte op ≠ some .opCheckLockTimeVerify := fun h =>
            hlock ⟨fromByte_lock h, by simpa using hactive⟩
          cases hop : OpCode.fromByte op with
          | none => rfl
          | some opcode =>
            rw [hop] at hbyte
            simp only [executeOpcode_height fun h => hbyte (congrArg some h)]
    rw [hround]
    simp

theorem loop_height : ∀ (fuel : Nat) (f : Frame) (m : Machine),
    eng.loop H verifyStrict ⟨sighash, height⟩ fuel f = .ok m ↔
      eng.loop H verifyStrict ⟨sighash, lastHeight⟩ fuel f = .ok m ∧
        ∀ lock ∈ eng.loopLocks H verifyStrict sighash fuel f, lock ≤ height.toNat
  | _, ⟨branchStack, m, []⟩, m' => by simp [loop, loopLocks]
  | 0, ⟨branchStack, m, op :: script⟩, m' => by simp [loop, loopLocks]
  | fuel + 1, ⟨branchStack, m, op :: script⟩, m' => by
    have hround : ∀ f', eng.round H verifyStrict ⟨sighash, height⟩ op ⟨branchStack, m, script⟩ = .ok f' ↔
        eng.round H verifyStrict ⟨sighash, lastHeight⟩ op ⟨branchStack, m, script⟩ = .ok f' ∧
          ∀ lock ∈ roundLocks op ⟨branchStack, m, script⟩, lock ≤ height.toNat := round_height op _
    have hloop : ∀ height, eng.loop H verifyStrict ⟨sighash, height⟩ (fuel + 1) ⟨branchStack, m, op :: script⟩ = .ok m' ↔
        ∃ f, eng.round H verifyStrict ⟨sighash, height⟩ op ⟨branchStack, m, script⟩ = .ok f ∧
          eng.loop H verifyStrict ⟨sighash, height⟩ fuel f = .ok m' := by
      intro height
      rw [loop]
      cases eng.round H verifyStrict ⟨sighash, height⟩ op ⟨branchStack, m, script⟩ <;> simp
    rw [hloop, hloop, loopLocks]
    simp only [hround, List.mem_append, or_imp, forall_and]
    constructor
    · rintro ⟨f, ⟨hf, hlocks⟩, hrest⟩
      obtain ⟨hlast, hlater⟩ := (loop_height fuel f m').mp hrest
      rw [hf]
      exact ⟨⟨f, rfl, hlast⟩, hlocks, hlater⟩
    · rintro ⟨⟨f, hf, hlast⟩, hlocks, hlater⟩
      rw [hf] at hlater
      exact ⟨f, ⟨hf, hlocks⟩, (loop_height fuel f m').mpr ⟨hlast, hlater⟩⟩

theorem executeScript_height (script : Bytes) (m m' : Machine) :
    eng.executeScript H verifyStrict ⟨sighash, height⟩ script m = .ok m' ↔
      eng.executeScript H verifyStrict ⟨sighash, lastHeight⟩ script m = .ok m' ∧
        ∀ lock ∈ eng.scriptLocks H verifyStrict sighash script m, lock ≤ height.toNat :=
  loop_height _ _ _

/-- A pair of scripts passes at a height exactly when it passes at the last one and every
    operand read on the way is at most the height. -/
theorem execute_height (unlockingScript lockingScript : Bytes) (valid : Bool) :
    eng.execute H verifyStrict ⟨sighash, height⟩ unlockingScript lockingScript = .ok valid ↔
      eng.execute H verifyStrict ⟨sighash, lastHeight⟩ unlockingScript lockingScript = .ok valid ∧
        ∀ lock ∈ eng.executeLocks H verifyStrict sighash unlockingScript lockingScript, lock ≤ height.toNat := by
  simp only [execute, bind_eq_ok, executeLocks, List.mem_append, or_imp, forall_and]
  constructor
  · rintro ⟨m, hm, m', hm', hvalid⟩
    obtain ⟨hlast, hlocks⟩ := (executeScript_height _ _ _).mp hm
    obtain ⟨hlast', hlocks'⟩ := (executeScript_height _ _ _).mp hm'
    rw [hlast]
    exact ⟨⟨m, rfl, m', hlast', hvalid⟩, hlocks, hlocks'⟩
  · rintro ⟨⟨m, hm, m', hm', hvalid⟩, hlocks, hlocks'⟩
    rw [hm] at hlocks'
    exact ⟨m, (executeScript_height _ _ _).mpr ⟨hm, hlocks⟩, m', (executeScript_height _ _ _).mpr ⟨hm', hlocks'⟩, hvalid⟩

/-- A pair of scripts that passes passes at every later height. -/
theorem execute_later {height' : UInt64} (hle : height ≤ height') {unlockingScript lockingScript : Bytes} {valid : Bool}
    (h : eng.execute H verifyStrict ⟨sighash, height⟩ unlockingScript lockingScript = .ok valid) :
    eng.execute H verifyStrict ⟨sighash, height'⟩ unlockingScript lockingScript = .ok valid := by
  obtain ⟨hlast, hlocks⟩ := (execute_height unlockingScript lockingScript valid).mp h
  refine (execute_height unlockingScript lockingScript valid).mpr ⟨hlast, fun lock hlock => ?_⟩
  calc lock ≤ height.toNat := hlocks lock hlock
    _ ≤ height'.toNat := UInt64.le_iff_toNat_le.mp hle

end ScriptEngine

end Scytale
