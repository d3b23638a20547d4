/-
  Scytale.Script.Stack — the stack of the script machine and its instructions
  (crates/scytale-script/src/stack.rs, opcode.rs, error.rs).

  The stack is listed from its top. Integers are 64-bit, little-endian, in two's complement.
-/
import Scytale.Hex

namespace Scytale

open Lib

def maxStackDepth : Nat := 1024

def maxItemSize : Nat := 520

inductive ScriptError where
  | stackUnderflow
  | stackOverflow (max : Nat)
  | itemTooLarge (size max : Nat)
  | invalidInteger (size : Nat)
  | arithmeticOverflow
  | equalVerifyFailed
  | checkSigVerifyFailed
  | lockTimeNotMet (lockHeight currentHeight : UInt64)
  | opReturnEncountered
  | budgetExceeded (max : Nat)
  | unbalancedConditionals
  | invalidOpCode (byte : UInt8)
  | scriptTruncated (expected found : Nat)
  | scriptFailed
  deriving DecidableEq

namespace ScriptError

def text : ScriptError → String
  | stackUnderflow => "stack underflow: attempted to pop from empty stack"
  | stackOverflow max => "stack overflow: stack depth exceeded maximum limit (" ++ toString max ++ ")"
  | itemTooLarge size max =>
    "item too large: element size " ++ toString size ++ " bytes exceeded limit of " ++ toString max ++ " bytes"
  | invalidInteger size =>
    "invalid integer encoding: expected 8-byte little-endian integer, found " ++ toString size ++ " bytes"
  | arithmeticOverflow => "arithmetic overflow during operation"
  | equalVerifyFailed => "OP_EQUALVERIFY failed: elements are not equal"
  | checkSigVerifyFailed => "OP_CHECKSIGVERIFY failed: signature verification failed"
  | lockTimeNotMet lockHeight currentHeight =>
    "OP_CHECKLOCKTIMEVERIFY failed: required lock height " ++ toString lockHeight.toNat ++ " > current height " ++
      toString currentHeight.toNat
  | opReturnEncountered => "OP_RETURN encountered: transaction output is provably unspendable"
  | budgetExceeded max => "execution budget exceeded: maximum " ++ toString max ++ " opcodes allowed"
  | unbalancedConditionals => "unbalanced conditional: mismatched OP_IF/OP_ELSE/OP_ENDIF"
  | invalidOpCode byte => "invalid opcode: 0x" ++ hexText [byte]
  | scriptTruncated expected found =>
    "script truncated: expected " ++ toString expected ++ " bytes for pushdata, found " ++ toString found
  | scriptFailed => "script evaluation failed: stack is empty or top item is false"

end ScriptError

/-- A computation in steps succeeds when each step does. -/
theorem bind_eq_ok {ε α β : Type} {x : Except ε α} {f : α → Except ε β} {b : β} :
    x >>= f = .ok b ↔ ∃ a, x = .ok a ∧ f a = .ok b := by
  constructor
  · intro h
    cases x with
    | error e => cases h
    | ok a => exact ⟨a, rfl, h⟩
  · rintro ⟨a, rfl, h⟩
    exact h

/-! ## The stack -/

abbrev ScriptStack := List Bytes

/-- `i64::from_le_bytes`: an item of fewer than eight bytes is padded with zeros, which
    leave the number as it is. -/
def intOfItem (item : Bytes) : Int := if leNat item < 2 ^ 63 then leNat item else (leNat item : Int) - 2 ^ 64

/-- `i64::to_le_bytes`. -/
def itemOfInt (val : Int) : Bytes := leBytes 8 (val % 2 ^ 64).toNat

/-- The checked result of an operation on 64-bit integers. -/
def checkedInt (val : Int) : Except ScriptError Int :=
  if -2 ^ 63 ≤ val ∧ val < 2 ^ 63 then .ok val else .error .arithmeticOverflow

/-- Empty, or all zeros: false. -/
def truthy (item : Bytes) : Bool := !item.all (· == 0)

namespace ScriptStack

def push (s : ScriptStack) (item : Bytes) : Except ScriptError ScriptStack :=
  if s.length ≥ maxStackDepth then .error (.stackOverflow maxStackDepth)
  else if item.length > maxItemSize then .error (.itemTooLarge item.length maxItemSize)
  else .ok (item :: s)

def pop : ScriptStack → Except ScriptError (Bytes × ScriptStack)
  | [] => .error .stackUnderflow
  | item :: s => .ok (item, s)

def pushInt (s : ScriptStack) (val : Int) : Except ScriptError ScriptStack := s.push (itemOfInt val)

def popInt (s : ScriptStack) : Except ScriptError (Int × ScriptStack) := do
  let (item, s) ← s.pop
  if item.length > 8 then throw (.invalidInteger item.length) else return (intOfItem item, s)

def pushBool (s : ScriptStack) (val : Bool) : Except ScriptError ScriptStack := s.push (if val then [1] else [])

def popBool (s : ScriptStack) : Except ScriptError (Bool × ScriptStack) := do
  let (item, s) ← s.pop
  return (truthy item, s)

def opDup : ScriptStack → Except ScriptError ScriptStack
  | [] => .error .stackUnderflow
  | top :: s => push (top :: s) top

def opDrop (s : ScriptStack) : Except ScriptError ScriptStack := do
  let (_, s) ← s.pop
  return s

def opSwap (s : ScriptStack) : Except ScriptError ScriptStack := do
  let (top, s) ← s.pop
  let (second, s) ← s.pop
  let s ← s.push top
  s.push second

def opRot (s : ScriptStack) : Except ScriptError ScriptStack := do
  let (x3, s) ← s.pop
  let (x2, s) ← s.pop
  let (x1, s) ← s.pop
  let s ← s.push x2
  let s ← s.push x3
  s.push x1

def op2Dup : ScriptStack → Except ScriptError ScriptStack
  | x2 :: x1 :: s => do
    let s ← push (x2 :: x1 :: s) x1
    s.push x2
  | _ => .error .stackUnderflow

end ScriptStack

/-! ## Instructions -/

/-- The sixteen small integers are one instruction with their value. -/
inductive OpCode where
  | op0
  | opPushData1
  | opInt (value : UInt8)
  | opIf
  | opElse
  | opEndIf
  | opReturn
  | opDup
  | opDrop
  | opSwap
  | opRot
  | op2Dup
  | opEqual
  | opEqualVerify
  | opAdd
  | opSub
  | opLessThan
  | opGreaterThan
  | opBlake3
  | opCheckSig
  | opCheckSigVerify
  | opCheckLockTimeVerify
  deriving DecidableEq

namespace OpCode

def OP_PUSHDATA1 : UInt8 := 0x4c

def OP_IF : UInt8 := 0x63

def OP_ELSE : UInt8 := 0x67

def OP_ENDIF : UInt8 := 0x68

def OP_CHECKLOCKTIMEVERIFY : UInt8 := 0xb1

def isPushbytes (byte : UInt8) : Bool := 0x01 ≤ byte && byte ≤ 0x4b

def fromByte (byte : UInt8) : Option OpCode :=
  if byte = 0x00 then some .op0
  else if byte = OP_PUSHDATA1 then some .opPushData1
  else if 0x51 ≤ byte ∧ byte ≤ 0x60 then some (.opInt (byte - 0x51 + 1))
  else if byte = OP_IF then some .opIf
  else if byte = OP_ELSE then some .opElse
  else if byte = OP_ENDIF then some .opEndIf
  else if byte = 0x6a then some .opReturn
  else if byte = 0x73 then some .opDup
  else if byte = 0x75 then some .opDrop
  else if byte = 0x76 then some .opSwap
  else if byte = 0x77 then some .opRot
  else if byte = 0x78 then some .op2Dup
  else if byte = 0x87 then some .opEqual
  else if byte = 0x88 then some .opEqualVerify
  else if byte = 0x93 then some .opAdd
  else if byte = 0x94 then some .opSub
  else if byte = 0x9b then some .opLessThan
  else if byte = 0x9c then some .opGreaterThan
  else if byte = 0xa0 then some .opBlake3
  else if byte = 0xac then some .opCheckSig
  else if byte = 0xad then some .opCheckSigVerify
  else if byte = OP_CHECKLOCKTIMEVERIFY then some .opCheckLockTimeVerify
  else none

end OpCode

end Scytale
