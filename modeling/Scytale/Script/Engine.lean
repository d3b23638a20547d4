/-
  Scytale.Script.Engine — the script machine (crates/scytale-script/src/engine.rs, context.rs).

  `execute` runs an unlocking script and then a locking script on one stack and one budget.
  The loop of `execute_script` is `loop`: `round` is its body, on what is left of the
  script, the open conditionals and the machine. Every round takes a byte off the script,
  so the script's length is fuel enough (`loop_fuel`). Ed25519 is a parameter.
-/
import Scytale.Script.Stack

namespace Scytale

open Lib

def defaultMaxOpsBudget : Nat := 256

structure ScriptContext where
  sighash : Hash256
  currentBlockHeight : UInt64
  deriving DecidableEq

/-- `verify_strict` under a key of 32 bytes, of a message and a signature of 64 bytes; a key
    that is no point verifies nothing. -/
abbrev VerifyStrict := Bytes → Hash256 → Bytes → Bool

/-- The stack and what is left of the budget: what the two scripts share. -/
structure Machine where
  stack : ScriptStack
  budget : Nat
  deriving DecidableEq

/-- What a round of the loop finds: the conditionals that are open, innermost first, the
    machine, and the script from the program counter on. -/
structure Frame where
  branchStack : List Bool
  machine : Machine
  script : Bytes
  deriving DecidableEq

structure ScriptEngine where
  maxOpsBudget : Nat
  deriving DecidableEq

/-- `ScriptEngine::new`. -/
def ScriptEngine.new : ScriptEngine := ⟨defaultMaxOpsBudget⟩

/-- Every enclosing branch is taken. -/
def Frame.isActive (f : Frame) : Bool := f.branchStack.all id

namespace ScriptEngine

variable (eng : ScriptEngine)

/-- One operation off the budget. -/
def charge (m : Machine) : Except ScriptError Machine :=
  if m.budget = 0 then .error (.budgetExceeded eng.maxOpsBudget) else .ok { m with budget := m.budget - 1 }

/-- Bytes of the script onto the stack; a branch that is not taken passes over them. -/
def pushData (f : Frame) (n : Nat) (script : Bytes) : Except ScriptError Frame :=
  if script.length < n then .error (.scriptTruncated n script.length)
  else if f.isActive then do
    let m ← eng.charge f.machine
    let stack ← m.stack.push (script.take n)
    return { f with machine := { m with stack }, script := script.drop n }
  else .ok { f with script := script.drop n }

section
variable (H : Hasher) (verifyStrict : VerifyStrict) (ctx : ScriptContext)

def verifySignature (pubkey sig : Bytes) : Bool :=
  pubkey.length == 32 && sig.length == 64 && verifyStrict pubkey ctx.sighash sig

/-- What an instruction does to the stack. -/
def executeOpcode (opcode : OpCode) (s : ScriptStack) : Except ScriptError ScriptStack :=
  match opcode with
  | .op0 => s.push []
  | .opInt value => s.pushInt value.toNat
  | .opReturn => .error .opReturnEncountered
  | .opDup => s.opDup
  | .opDrop => s.opDrop
  | .opSwap => s.opSwap
  | .opRot => s.opRot
  | .op2Dup => s.op2Dup
  | .opEqual => do
    let (b, s) ← s.pop
    let (a, s) ← s.pop
    s.pushBool (a == b)
  | .opEqualVerify => do
    let (b, s) ← s.pop
    let (a, s) ← s.pop
    if a ≠ b then throw .equalVerifyFailed else return s
  | .opAdd => do
    let (b, s) ← s.popInt
    let (a, s) ← s.popInt
    let res ← checkedInt (a + b)
    s.pushInt res
  | .opSub => do
    let (b, s) ← s.popInt
    let (a, s) ← s.popInt
    let res ← checkedInt (a - b)
    s.pushInt res
  | .opLessThan => do
    let (b, s) ← s.popInt
    let (a, s) ← s.popInt
    s.pushBool (a < b)
  | .opGreaterThan => do
    let (b, s) ← s.popInt
    let (a, s) ← s.popInt
    s.pushBool (a > b)
  | .opBlake3 => do
    let (item, s) ← s.pop
    s.push (H item).bytes
  | .opCheckSig => do
    let (pubkey, s) ← s.pop
    let (sig, s) ← s.pop
    s.pushBool (verifySignature verifyStrict ctx pubkey sig)
  | .opCheckSigVerify => do
    let (pubkey, s) ← s.pop
    let (sig, s) ← s.pop
    if verifySignature verifyStrict ctx pubkey sig then return s else throw .checkSigVerifyFailed
  | .opCheckLockTimeVerify => do
    let (lock, s) ← s.popInt
    if lock < 0 then throw (.lockTimeNotMet 0 ctx.currentBlockHeight)
    else if lock.toNat > ctx.currentBlockHeight.toNat then
      throw (.lockTimeNotMet (UInt64.ofNat lock.toNat) ctx.currentBlockHeight)
    else return s
  -- handled before
  | .opIf | .opElse | .opEndIf | .opPushData1 => .ok s

/-- The body of the loop, on a byte and the frame behind it. -/
def round (op : UInt8) (f : Frame) : Except ScriptError Frame :=
  if op = OpCode.OP_IF then
    if f.isActive then do
      let m ← eng.charge f.machine
      let (cond, stack) ← m.stack.popBool
      return { f with branchStack := cond :: f.branchStack, machine := { m with stack } }
    else .ok { f with branchStack := false :: f.branchStack }
  else if op = OpCode.OP_ELSE then
    match f.branchStack with
    | [] => .error .unbalancedConditionals
    | branch :: outer => .ok (if outer.all id then { f with branchStack := (!branch) :: outer } else f)
  else if op = OpCode.OP_ENDIF then
    match f.branchStack with
    | [] => .error .unbalancedConditionals
    | _ :: outer => .ok { f with branchStack := outer }
  else if OpCode.isPushbytes op then eng.pushData f op.toNat f.script
  else if op = OpCode.OP_PUSHDATA1 then
    match f.script with
    | [] => .error (.scriptTruncated 1 0)
    | n :: script => eng.pushData f n.toNat script
  else if !f.isActive then .ok f
  else do
    let m ← eng.charge f.machine
    match OpCode.fromByte op with
    | none => throw (.invalidOpCode op)
    | some opcode =>
      let stack ← executeOpcode H verifyStrict ctx opcode m.stack
      return { f with machine := { m with stack } }

/-- The loop, and the check behind it. Without fuel it stops: `loop_fuel`. -/
def loop : Nat → Frame → Except ScriptError Machine
  | _, ⟨branchStack, m, []⟩ => if branchStack.isEmpty then .ok m else .error .unbalancedConditionals
  | 0, ⟨_, m, _ :: _⟩ => .ok m
  | fuel + 1, ⟨branchStack, m, op :: script⟩ =>
    match eng.round H verifyStrict ctx op ⟨branchStack, m, script⟩ with
    | .error e => .error e
    | .ok f => loop fuel f

def executeScript (script : Bytes) (m : Machine) : Except ScriptError Machine :=
  eng.loop H verifyStrict ctx script.length ⟨[], m, script⟩

def execute (unlockingScript lockingScript : Bytes) : Except ScriptError Bool := do
  let m ← eng.executeScript H verifyStrict ctx unlockingScript ⟨[], eng.maxOpsBudget⟩
  let m ← eng.executeScript H verifyStrict ctx lockingScript m
  if m.stack.isEmpty then throw .scriptFailed
  else
    let (isValid, _) ← m.stack.popBool
    if isValid then return true else throw .scriptFailed

end

/-! ## One round at a time -/

variable {eng} {H : Hasher} {verifyStrict : VerifyStrict} {ctx : ScriptContext}

/-- Neither a conditional nor a push of bytes. -/
def isPlain (op : UInt8) : Bool :=
  op != OpCode.OP_IF && op != OpCode.OP_ELSE && op != OpCode.OP_ENDIF && !OpCode.isPushbytes op &&
    op != OpCode.OP_PUSHDATA1

/-- How a round begins. -/
theorem byte_cases (op : UInt8) : op = OpCode.OP_IF ∨ op = OpCode.OP_ELSE ∨ op = OpCode.OP_ENDIF ∨
    OpCode.isPushbytes op = true ∨ op = OpCode.OP_PUSHDATA1 ∨ isPlain op = true := by
  by_cases h : isPlain op = true
  · simp [h]
  · simp only [isPlain, Bool.and_eq_true, bne_iff_ne, Bool.not_eq_true', not_and_or, not_not] at h
    rcases h with (((h | h) | h) | h) | h <;> simp [h]

theorem round_if (f : Frame) : eng.round H verifyStrict ctx OpCode.OP_IF f =
    if f.isActive then do
      let m ← eng.charge f.machine
      let (cond, stack) ← m.stack.popBool
      return { f with branchStack := cond :: f.branchStack, machine := { m with stack } }
    else .ok { f with branchStack := false :: f.branchStack } := rfl

theorem round_else (f : Frame) : eng.round H verifyStrict ctx OpCode.OP_ELSE f =
    match f.branchStack with
    | [] => .error .unbalancedConditionals
    | branch :: outer => .ok (if outer.all id then { f with branchStack := (!branch) :: outer } else f) := rfl

theorem round_endif (f : Frame) : eng.round H verifyStrict ctx OpCode.OP_ENDIF f =
    match f.branchStack with
    | [] => .error .unbalancedConditionals
    | _ :: outer => .ok { f with branchStack := outer } := rfl

theorem round_pushbytes {op : UInt8} (h : OpCode.isPushbytes op = true) (f : Frame) :
    eng.round H verifyStrict ctx op f = eng.pushData f op.toNat f.script := by
  have hif : op ≠ OpCode.OP_IF := by rintro rfl; simp [OpCode.isPushbytes, OpCode.OP_IF] at h
  have helse : op ≠ OpCode.OP_ELSE := by rintro rfl; simp [OpCode.isPushbytes, OpCode.OP_ELSE] at h
  have hend : op ≠ OpCode.OP_ENDIF := by rintro rfl; simp [OpCode.isPushbytes, OpCode.OP_ENDIF] at h
  rw [round, if_neg hif, if_neg helse, if_neg hend, if_pos h]

theorem round_pushdata1 (f : Frame) : eng.round H verifyStrict ctx OpCode.OP_PUSHDATA1 f =
    match f.script with
    | [] => .error (.scriptTruncated 1 0)
    | n :: script => eng.pushData f n.toNat script := rfl

theorem round_plain {op : UInt8} (h : isPlain op = true) (f : Frame) :
    eng.round H verifyStrict ctx op f =
      if !f.isActive then .ok f
      else do
        let m ← eng.charge f.machine
        match OpCode.fromByte op with
        | none => throw (.invalidOpCode op)
        | some opcode =>
          let stack ← executeOpcode H verifyStrict ctx opcode m.stack
          return { f with machine := { m with stack } } := by
  simp only [isPlain, Bool.and_eq_true, bne_iff_ne, Bool.not_eq_true'] at h
  obtain ⟨⟨⟨⟨hif, helse⟩, hend⟩, hpush⟩, hdata⟩ := h
  rw [round, if_neg hif, if_neg helse, if_neg hend, if_neg (by simp [hpush]), if_neg hdata]

/-! ## Every round takes a byte -/

theorem pushData_script {f f' : Frame} {n : Nat} {script : Bytes} (h : eng.pushData f n script = .ok f') :
    f'.script.length ≤ script.length := by
  unfold pushData at h
  split at h
  · cases h
  · split at h
    · obtain ⟨m, -, h⟩ := bind_eq_ok.mp h
      obtain ⟨stack, -, h⟩ := bind_eq_ok.mp h
      cases h
      exact (List.length_drop ..).trans_le (Nat.sub_le _ _)
    · cases h
      exact (List.length_drop ..).trans_le (Nat.sub_le _ _)

/-- A round leaves at most the script behind its byte. -/
theorem round_script {op : UInt8} {f f' : Frame} (h : eng.round H verifyStrict ctx op f = .ok f') :
    f'.script.length ≤ f.script.length := by
  rcases byte_cases op with rfl | rfl | rfl | hpush | rfl | hplain
  · rw [round_if] at h
    split at h
    · obtain ⟨m, -, h⟩ := bind_eq_ok.mp h
      obtain ⟨⟨cond, stack⟩, -, h⟩ := bind_eq_ok.mp h
      cases h
      exact Nat.le_refl _
    · cases h
      exact Nat.le_refl _
  · rw [round_else] at h
    split at h
    · cases h
    · cases h
      split <;> exact Nat.le_refl _
  · rw [round_endif] at h
    split at h
    · cases h
    · cases h
      exact Nat.le_refl _
  · rw [round_pushbytes hpush] at h
    exact pushData_script h
  · rw [round_pushdata1] at h
    split at h
    · cases h
    · rename_i hscript
      rw [hscript]
      exact Nat.le_succ_of_le (pushData_script h)
  · rw [round_plain hplain] at h
    split at h
    · cases h
      exact Nat.le_refl _
    · obtain ⟨m, -, h⟩ := bind_eq_ok.mp h
      split at h
      · cases h
      · obtain ⟨stack, -, h⟩ := bind_eq_ok.mp h
        cases h
        exact Nat.le_refl _

/-- So fuel beyond the script's length changes nothing. -/
theorem loop_fuel : ∀ {fuel fuel' : Nat} {f : Frame}, f.script.length ≤ fuel → f.script.length ≤ fuel' →
    eng.loop H verifyStrict ctx fuel f = eng.loop H verifyStrict ctx fuel' f
  | _, _, ⟨_, _, []⟩, _, _ => by simp only [loop]
  | 0, _, ⟨_, _, _ :: _⟩, h, _ => absurd h (by simp)
  | _, 0, ⟨_, _, _ :: _⟩, _, h => absurd h (by simp)
  | fuel + 1, fuel' + 1, ⟨branchStack, m, op :: script⟩, h, h' => by
    simp only [List.length_cons, Nat.add_le_add_iff_right] at h h'
    simp only [loop]
    cases hr : eng.round H verifyStrict ctx op ⟨branchStack, m, script⟩ with
    | error e => rfl
    | ok f =>
      have hle := round_script hr
      exact loop_fuel (Nat.le_trans hle h) (Nat.le_trans hle h')

/-! ## The loop without fuel -/

/-- What the loop does from a frame on. -/
def run (eng : ScriptEngine) (H : Hasher) (verifyStrict : VerifyStrict) (ctx : ScriptContext) (f : Frame) :
    Except ScriptError Machine :=
  eng.loop H verifyStrict ctx f.script.length f

theorem executeScript_eq_run (script : Bytes) (m : Machine) :
    eng.executeScript H verifyStrict ctx script m = eng.run H verifyStrict ctx ⟨[], m, script⟩ := rfl

theorem run_nil (branchStack : List Bool) (m : Machine) : eng.run H verifyStrict ctx ⟨branchStack, m, []⟩ =
    if branchStack.isEmpty then .ok m else .error .unbalancedConditionals := by
  simp only [run, loop]

theorem run_cons (branchStack : List Bool) (m : Machine) (op : UInt8) (script : Bytes) :
    eng.run H verifyStrict ctx ⟨branchStack, m, op :: script⟩ =
      eng.round H verifyStrict ctx op ⟨branchStack, m, script⟩ >>= eng.run H verifyStrict ctx := by
  simp only [run, List.length_cons, loop]
  cases hr : eng.round H verifyStrict ctx op ⟨branchStack, m, script⟩ with
  | error e => rfl
  | ok f => exact loop_fuel (round_script hr) (Nat.le_refl _)

end ScriptEngine

end Scytale
