/-
  Scytale.Script.Rules — what an instruction ensures
  (crates/scytale-script/src/engine.rs, stack.rs).

  An instruction takes its operands off the stack before it pushes. So whatever a pop and a
  push ensure of a stack and its depth, every instruction ensures.
  - `StackRules`: the rules of a pop and of a push.
  - `StackRules.executeOpcode`: an instruction leaves at most two items more than it found.
-/
import Scytale.Script.Engine
import Scytale.Lib.Outcome

namespace Scytale

open Lib

/-- The errors of `ScriptStack::push`. -/
def ScriptError.overLimit : ScriptError → Prop
  | stackOverflow _ | itemTooLarge _ _ => True
  | _ => False

/-- Failures are in `E`. A stack of at most `n` items has `S n` and its items have `I`, as
    long as there are never more than `room` of them. -/
structure StackRules (E : ScriptError → Prop) (S : Nat → ScriptStack → Prop) (I : Bytes → Prop) (room : Nat) : Prop where
  errors : ∀ e : ScriptError, ¬e.overLimit → e ≠ .unbalancedConditionals → E e
  /-- Instructions write digests, integers and truth values. -/
  written : ∀ item : Bytes, item.length ≤ 32 → I item
  mono : ∀ {n n' : Nat} {s : ScriptStack}, S n s → n ≤ n' → S n' s
  pop : ∀ {n : Nat} {s : ScriptStack}, S n s → Ensures E (fun r => I r.1 ∧ 0 < n ∧ S (n - 1) r.2) s.pop
  push : ∀ {n : Nat} {s : ScriptStack}, S n s → n < room → ∀ {item : Bytes}, I item → Ensures E (S (n + 1)) (s.push item)

namespace StackRules

variable {E : ScriptError → Prop} {S : Nat → ScriptStack → Prop} {I : Bytes → Prop} {room n : Nat} {s : ScriptStack}

/-! ## Operations on the stack -/

section
variable (h : StackRules E S I room) (hs : S n s)
include h hs

theorem pushInt (hn : n < room) (val : Int) : Ensures E (S (n + 1)) (s.pushInt val) :=
  h.push hs hn (h.written _ (by simp [itemOfInt]))

theorem pushBool (hn : n < room) (val : Bool) : Ensures E (S (n + 1)) (s.pushBool val) :=
  h.push hs hn (h.written _ (by cases val <;> decide))

theorem popInt : Ensures E (fun r => 0 < n ∧ S (n - 1) r.2) s.popInt := by
  refine (h.pop hs).bind fun r hr => ?_
  show Ensures E _ (if r.1.length > 8 then _ else _)
  split
  · exact h.errors _ id ScriptError.noConfusion
  · exact hr.2

theorem popBool : Ensures E (fun r => 0 < n ∧ S (n - 1) r.2) s.popBool :=
  (h.pop hs).bind fun _ hr => hr.2

theorem opDup (hn : n < room) : Ensures E (S (n + 1)) s.opDup := by
  cases s with
  | nil => exact h.errors _ id ScriptError.noConfusion
  | cons top s =>
    obtain ⟨htop, -⟩ := h.pop hs
    exact h.push hs hn htop

theorem opDrop : Ensures E (S n) s.opDrop :=
  (h.pop hs).bind fun _ hr => h.mono hr.2.2 (Nat.sub_le _ _)

theorem opSwap (hn : n ≤ room) : Ensures E (S n) s.opSwap := by
  refine (h.pop hs).bind fun top htop => ?_
  refine (h.pop htop.2.2).bind fun second hsecond => ?_
  have hpos := hsecond.2.1
  refine (h.push hsecond.2.2 (by omega) htop.1).bind fun s' hs' => ?_
  exact (h.push hs' (by omega) hsecond.1).mono fun s'' hs'' => h.mono hs'' (by omega)

theorem opRot (hn : n ≤ room) : Ensures E (S n) s.opRot := by
  refine (h.pop hs).bind fun x3 h3 => ?_
  refine (h.pop h3.2.2).bind fun x2 h2 => ?_
  refine (h.pop h2.2.2).bind fun x1 h1 => ?_
  have hpos := h1.2.1
  refine (h.push h1.2.2 (by omega) h2.1).bind fun s₁ hs₁ => ?_
  refine (h.push hs₁ (by omega) h3.1).bind fun s₂ hs₂ => ?_
  exact (h.push hs₂ (by omega) h1.1).mono fun s₃ hs₃ => h.mono hs₃ (by omega)

theorem op2Dup (hn : n + 1 < room) : Ensures E (S (n + 2)) s.op2Dup := by
  match s with
  | [] | [_] => exact h.errors _ id ScriptError.noConfusion
  | x2 :: x1 :: s =>
    obtain ⟨h2, -, hrest⟩ := h.pop hs
    obtain ⟨h1, -⟩ := h.pop hrest
    exact (h.push hs (by omega) h1).bind fun s' hs' => h.push hs' hn h2

/-- The two operands of an instruction, and what it does with them and the stack under them. -/
theorem operands {α : Type} {Q : α → Prop} {f : Bytes × ScriptStack → Bytes × ScriptStack → Except ScriptError α}
    (hf : ∀ b a, S n a.2 → Ensures E Q (f b a)) : Ensures E Q (s.pop >>= fun b => b.2.pop >>= fun a => f b a) := by
  refine (h.pop hs).bind fun b hb => ?_
  refine (h.pop hb.2.2).bind fun a ha => ?_
  exact hf b a (h.mono ha.2.2 (by omega))

theorem intOperands {α : Type} {Q : α → Prop} {f : Int × ScriptStack → Int × ScriptStack → Except ScriptError α}
    (hf : ∀ b a, S n a.2 → Ensures E Q (f b a)) :
    Ensures E Q (s.popInt >>= fun b => b.2.popInt >>= fun a => f b a) := by
  refine (h.popInt hs).bind fun b hb => ?_
  refine (h.popInt hb.2).bind fun a ha => ?_
  exact hf b a (h.mono ha.2 (by omega))

end

/-! ## Instructions -/

theorem checkedInt (h : StackRules E S I room) (val : Int) : Ensures E (fun _ => True) (checkedInt val) := by
  unfold Scytale.checkedInt
  split
  · exact trivial
  · exact h.errors _ id ScriptError.noConfusion

/-- No instruction leaves more than two items above those it found. -/
theorem executeOpcode (h : StackRules E S I room) (hs : S n s) (hn : n + 2 ≤ room) {H : Hasher} {verifyStrict : VerifyStrict}
    {ctx : ScriptContext} (opcode : OpCode) :
    Ensures E (S (n + 2)) (ScriptEngine.executeOpcode H verifyStrict ctx opcode s) := by
  have hone : ∀ s', S (n + 1) s' → S (n + 2) s' := fun s' hs' => h.mono hs' (by omega)
  have hnone : ∀ s', S n s' → S (n + 2) s' := fun s' hs' => h.mono hs' (by omega)
  have hbool : ∀ (s' : ScriptStack) (val : Bool), S n s' → Ensures E (S (n + 2)) (s'.pushBool val) :=
    fun s' val hs' => (h.pushBool hs' (by omega) val).mono hone
  have hint : ∀ (s' : ScriptStack) (val : Int), S n s' → Ensures E (S (n + 2)) (s'.pushInt val) :=
    fun s' val hs' => (h.pushInt hs' (by omega) val).mono hone
  cases opcode with
  | op0 => exact (h.push hs (by omega) (h.written [] (by decide))).mono hone
  | opInt value => exact hint s _ hs
  | opReturn => exact h.errors _ id ScriptError.noConfusion
  | opDup => exact (h.opDup hs (by omega)).mono hone
  | opDrop => exact (h.opDrop hs).mono hnone
  | opSwap => exact (h.opSwap hs (by omega)).mono hnone
  | opRot => exact (h.opRot hs (by omega)).mono hnone
  | op2Dup => exact h.op2Dup hs (by omega)
  | opEqual => exact h.operands hs fun b a ha => hbool a.2 (a.1 == b.1) ha
  | opEqualVerify =>
    refine h.operands hs fun b a ha => ?_
    show Ensures E _ (if a.1 ≠ b.1 then _ else _)
    split
    · exact h.errors _ id ScriptError.noConfusion
    · exact hnone a.2 ha
  | opAdd =>
    refine h.intOperands hs fun b a ha => ?_
    exact (h.checkedInt (a.1 + b.1)).bind fun res _ => hint a.2 res ha
  | opSub =>
    refine h.intOperands hs fun b a ha => ?_
    exact (h.checkedInt (a.1 - b.1)).bind fun res _ => hint a.2 res ha
  | opLessThan => exact h.intOperands hs fun b a ha => hbool a.2 (a.1 < b.1) ha
  | opGreaterThan => exact h.intOperands hs fun b a ha => hbool a.2 (a.1 > b.1) ha
  | opBlake3 =>
    refine (h.pop hs).bind fun item hitem => ?_
    have hdigest : I (H item.1).bytes := h.written _ (Nat.le_of_eq (H item.1).size)
    exact (h.push hitem.2.2 (by omega) hdigest).mono fun s' hs' => h.mono hs' (by omega)
  | opCheckSig => exact h.operands hs fun b a ha => hbool a.2 (ScriptEngine.verifySignature verifyStrict ctx b.1 a.1) ha
  | opCheckSigVerify =>
    refine h.operands hs fun b a ha => ?_
    show Ensures E _ (if ScriptEngine.verifySignature verifyStrict ctx b.1 a.1 then _ else _)
    split
    · exact hnone a.2 ha
    · exact h.errors _ id ScriptError.noConfusion
  | opCheckLockTimeVerify =>
    refine (h.popInt hs).bind fun lock hlock => ?_
    show Ensures E _ (if lock.1 < 0 then _ else if lock.1.toNat > ctx.currentBlockHeight.toNat then _ else _)
    split
    · exact h.errors _ id ScriptError.noConfusion
    · split
      · exact h.errors _ id ScriptError.noConfusion
      · exact h.mono hlock.2 (by omega)
  | opIf | opElse | opEndIf | opPushData1 => exact hnone s hs

end StackRules

end Scytale
