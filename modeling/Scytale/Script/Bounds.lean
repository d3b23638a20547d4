/-
  Scytale.Script.Bounds — what a run of the two scripts can use
  (crates/scytale-script/src/engine.rs, stack.rs).

  An instruction takes its operands off the stack before it pushes, and leaves at most two
  items more than it found; a script can write no item of more than 255 bytes, and a digest
  or an integer is shorter. So the stack and twice what is left of the budget never grow
  together (`Machine.Within`), over both scripts.
  - `script_bounds`: with the default engine at most 512 items of at most 255 bytes and 256
    charged operations, and the limits of the stack are never what a script fails by.
-/
import Scytale.Script.Rules

namespace Scytale

open Lib

/-- A result meets `Q`, and no limit of the stack is hit. -/
abbrev Bounded {α : Type} (Q : α → Prop) : Except ScriptError α → Prop := Ensures (fun e => ¬e.overLimit) Q

/-! ## Instructions -/

namespace ScriptStack

/-- The longest item a script can write. -/
def maxPush : Nat := 255

/-- At most `n` items, none longer than a push. -/
structure Small (n : Nat) (s : ScriptStack) : Prop where
  depth : s.length ≤ n
  items : ∀ item ∈ s, item.length ≤ maxPush

theorem Small.mono {n n' : Nat} {s : ScriptStack} (hs : s.Small n) (h : n ≤ n') : s.Small n' :=
  ⟨Nat.le_trans hs.depth h, hs.items⟩

variable {n : Nat} {s : ScriptStack}

theorem push_bounded (hs : s.Small n) (hn : n < maxStackDepth) {item : Bytes} (hitem : item.length ≤ maxPush) :
    Bounded (Small (n + 1)) (s.push item) := by
  have hdepth := hs.depth
  have hsize : maxPush ≤ maxItemSize := by decide
  unfold push
  rw [if_neg (by omega), if_neg (by omega)]
  exact ⟨Nat.succ_le_succ hdepth, List.forall_mem_cons.mpr ⟨hitem, hs.items⟩⟩

theorem pop_bounded (hs : s.Small n) :
    Bounded (fun r => r.1.length ≤ maxPush ∧ 0 < n ∧ Small (n - 1) r.2) s.pop := by
  cases s with
  | nil => exact id
  | cons item s =>
    obtain ⟨hitem, hitems⟩ := List.forall_mem_cons.mp hs.items
    have hdepth : s.length + 1 ≤ n := hs.depth
    exact ⟨hitem, by omega, ⟨Nat.le_sub_one_of_lt hdepth, hitems⟩⟩

theorem small_rules : StackRules (fun e => ¬e.overLimit) Small (fun item => item.length ≤ maxPush) maxStackDepth where
  errors _ h _ := h
  written item h := Nat.le_trans h (by decide)
  mono hs h := hs.mono h
  pop hs := pop_bounded hs
  push hs hn _ hitem := push_bounded hs hn hitem

end ScriptStack

/-- A charged operation leaves at most two items more. -/
structure Machine.Within (m : Machine) : Prop where
  depth : m.stack.length + 2 * m.budget ≤ 2 * defaultMaxOpsBudget
  items : ∀ item ∈ m.stack, item.length ≤ ScriptStack.maxPush

theorem Machine.Within.small {m : Machine} (hm : m.Within) :
    m.stack.Small (2 * defaultMaxOpsBudget - 2 * m.budget) :=
  ⟨Nat.le_sub_of_add_le hm.depth, hm.items⟩

/-- What a charged operation leaves. -/
theorem Machine.Within.of_small {m : Machine} {n : Nat} {s : ScriptStack} (hs : s.Small n)
    (hn : n + 2 * m.budget ≤ 2 * defaultMaxOpsBudget) : Machine.Within { m with stack := s } :=
  ⟨by have := hs.depth; show s.length + 2 * m.budget ≤ _; omega, hs.items⟩

namespace ScriptEngine

open ScriptStack

variable {eng : ScriptEngine} {H : Hasher} {verifyStrict : VerifyStrict} {ctx : ScriptContext}

/-! ## Rounds -/

/-- Where every enclosing branch is taken and there is budget left an operation is charged. -/
def charges (f : Frame) : Nat := if f.isActive = true ∧ f.machine.budget ≠ 0 then 1 else 0

/-- A push is charged once its bytes are there. -/
def pushCharges (f : Frame) (n : Nat) (script : Bytes) : Nat := if script.length < n then 0 else charges f

/-- The operations a round takes off the budget, also when the instruction then fails. -/
def roundCharges (op : UInt8) (f : Frame) : Nat :=
  if op = OpCode.OP_ELSE ∨ op = OpCode.OP_ENDIF then 0
  else if OpCode.isPushbytes op then pushCharges f op.toNat f.script
  else if op = OpCode.OP_PUSHDATA1 then
    match f.script with
    | [] => 0
    | n :: script => pushCharges f n.toNat script
  else charges f

section
variable (eng : ScriptEngine) (H : Hasher) (verifyStrict : VerifyStrict) (ctx : ScriptContext)

/-- The frames the loop comes by. -/
def loopFrames : Nat → Frame → List Frame
  | _, ⟨branchStack, m, []⟩ => [⟨branchStack, m, []⟩]
  | 0, f => [f]
  | fuel + 1, ⟨branchStack, m, op :: script⟩ =>
    ⟨branchStack, m, op :: script⟩ ::
      match eng.round H verifyStrict ctx op ⟨branchStack, m, script⟩ with
      | .error _ => []
      | .ok f => loopFrames fuel f

/-- The operations the loop is charged for. -/
def loopCharges : Nat → Frame → Nat
  | _, ⟨_, _, []⟩ => 0
  | 0, ⟨_, _, _ :: _⟩ => 0
  | fuel + 1, ⟨branchStack, m, op :: script⟩ =>
    roundCharges op ⟨branchStack, m, script⟩ +
      match eng.round H verifyStrict ctx op ⟨branchStack, m, script⟩ with
      | .error _ => 0
      | .ok f => loopCharges fuel f

def scriptFrames (script : Bytes) (m : Machine) : List Frame :=
  eng.loopFrames H verifyStrict ctx script.length ⟨[], m, script⟩

def scriptCharges (script : Bytes) (m : Machine) : Nat :=
  eng.loopCharges H verifyStrict ctx script.length ⟨[], m, script⟩

/-- The frames of an unlocking and then a locking script. -/
def executeFrames (unlockingScript lockingScript : Bytes) : List Frame :=
  eng.scriptFrames H verifyStrict ctx unlockingScript ⟨[], eng.maxOpsBudget⟩ ++
    match eng.executeScript H verifyStrict ctx unlockingScript ⟨[], eng.maxOpsBudget⟩ with
    | .error _ => []
    | .ok m => eng.scriptFrames H verifyStrict ctx lockingScript m

def executeCharges (unlockingScript lockingScript : Bytes) : Nat :=
  eng.scriptCharges H verifyStrict ctx unlockingScript ⟨[], eng.maxOpsBudget⟩ +
    match eng.executeScript H verifyStrict ctx unlockingScript ⟨[], eng.maxOpsBudget⟩ with
    | .error _ => 0
    | .ok m => eng.scriptCharges H verifyStrict ctx lockingScript m

end

theorem charges_of_inactive {f : Frame} (h : ¬f.isActive = true) : charges f = 0 := if_neg fun hf => h hf.1

/-- A charge makes room for two items. -/
theorem charge_bounded {f : Frame} (hf : f.machine.Within) (hactive : f.isActive = true) :
    Bounded (fun m => m.budget + 1 = f.machine.budget ∧ charges f = 1 ∧
      m.stack.Small (2 * defaultMaxOpsBudget - 2 * f.machine.budget)) (eng.charge f.machine) := by
  unfold charge
  split
  · exact id
  · rename_i hbudget
    exact ⟨Nat.sub_add_cancel (Nat.pos_of_ne_zero hbudget), if_pos ⟨hactive, hbudget⟩, hf.small⟩

theorem pushData_bounded {f : Frame} (hf : f.machine.Within) {n : Nat} (hn : n ≤ maxPush) (script : Bytes) :
    Bounded (fun f' => f'.machine.Within ∧ f'.machine.budget + pushCharges f n script = f.machine.budget)
      (eng.pushData f n script) := by
  have hdepth := hf.depth
  have hmax : 2 * defaultMaxOpsBudget < maxStackDepth := by decide
  unfold pushData
  split
  · exact id
  · rename_i hlen
    have hpush : pushCharges f n script = charges f := if_neg hlen
    split
    · rename_i hactive
      refine (charge_bounded hf hactive).bind fun m hm => ?_
      obtain ⟨hbudget, hcharges, hstack⟩ := hm
      have hitem : (script.take n).length ≤ maxPush := (List.length_take_le n script).trans hn
      refine (push_bounded hstack (by omega) hitem).bind fun s hs => ?_
      exact ⟨Machine.Within.of_small hs (by omega), by rw [hpush, hcharges]; exact hbudget⟩
    · rename_i hactive
      exact ⟨hf, by rw [hpush, charges_of_inactive hactive]; rfl⟩

theorem roundCharges_pushbytes {op : UInt8} (h : OpCode.isPushbytes op = true) (f : Frame) :
    roundCharges op f = pushCharges f op.toNat f.script := by
  have hflow : ¬(op = OpCode.OP_ELSE ∨ op = OpCode.OP_ENDIF) := by rintro (rfl | rfl) <;> cases h
  rw [roundCharges, if_neg hflow, if_pos h]

theorem roundCharges_plain {op : UInt8} (h : isPlain op = true) (f : Frame) : roundCharges op f = charges f := by
  simp only [isPlain, Bool.and_eq_true, bne_iff_ne, Bool.not_eq_true'] at h
  obtain ⟨⟨⟨⟨-, helse⟩, hend⟩, hpush⟩, hdata⟩ := h
  rw [roundCharges, if_neg fun h => h.elim helse hend, if_neg (by simp [hpush]), if_neg hdata]

theorem round_bounded {f : Frame} (hf : f.machine.Within) (op : UInt8) :
    Bounded (fun f' => f'.machine.Within ∧ f'.machine.budget + roundCharges op f = f.machine.budget)
      (eng.round H verifyStrict ctx op f) := by
  have hdepth := hf.depth
  have hmax : 2 * defaultMaxOpsBudget + 2 < maxStackDepth := by decide
  rcases byte_cases op with rfl | rfl | rfl | hpush | rfl | hplain
  · have hcharges : roundCharges OpCode.OP_IF f = charges f := rfl
    rw [round_if, hcharges]
    by_cases hactive : f.isActive = true
    · rw [if_pos hactive]
      refine (charge_bounded hf hactive).bind fun m hm => ?_
      obtain ⟨hbudget, hone, hstack⟩ := hm
      refine (small_rules.popBool hstack).bind fun r hr => ?_
      exact ⟨Machine.Within.of_small hr.2 (by omega), by rw [hone]; exact hbudget⟩
    · rw [if_neg hactive, charges_of_inactive hactive]
      exact ⟨hf, rfl⟩
  · rw [round_else]
    cases f.branchStack with
    | nil => exact id
    | cons branch outer =>
      show Bounded _ (.ok (if outer.all id then _ else f))
      split <;> exact ⟨hf, rfl⟩
  · rw [round_endif]
    cases f.branchStack with
    | nil => exact id
    | cons branch outer => exact ⟨hf, rfl⟩
  · rw [round_pushbytes hpush, roundCharges_pushbytes hpush]
    exact pushData_bounded hf (Nat.le_of_lt_succ op.toNat_lt) f.script
  · have hcharges : roundCharges OpCode.OP_PUSHDATA1 f =
      match f.script with
      | [] => 0
      | n :: script => pushCharges f n.toNat script := rfl
    rw [round_pushdata1, hcharges]
    cases f.script with
    | nil => exact id
    | cons n script => exact pushData_bounded hf (Nat.le_of_lt_succ n.toNat_lt) script
  · rw [round_plain hplain, roundCharges_plain hplain]
    by_cases hactive : f.isActive = true
    · rw [if_neg (by simp [hactive])]
      refine (charge_bounded hf hactive).bind fun m hm => ?_
      obtain ⟨hbudget, hone, hstack⟩ := hm
      cases OpCode.fromByte op with
      | none => exact id
      | some opcode =>
        refine (small_rules.executeOpcode hstack (by omega) opcode).bind fun s hs => ?_
        exact ⟨Machine.Within.of_small hs (by omega), by rw [hone]; exact hbudget⟩
    · rw [if_pos (by simpa using hactive), charges_of_inactive hactive]
      exact ⟨hf, rfl⟩

/-! ## Runs -/

theorem roundCharges_le (op : UInt8) (f : Frame) : roundCharges op f ≤ f.machine.budget := by
  have hcharges : charges f ≤ f.machine.budget := by
    unfold charges
    split <;> omega
  have hpush : ∀ n script, pushCharges f n script ≤ f.machine.budget := by
    intro n script
    unfold pushCharges
    split <;> omega
  unfold roundCharges
  split
  · exact Nat.zero_le _
  · split
    · exact hpush _ _
    · split
      · split
        · exact Nat.zero_le _
        · exact hpush _ _
      · exact hcharges

theorem loop_bounded : ∀ (fuel : Nat) {f : Frame}, f.machine.Within →
    Bounded (fun m => m.Within ∧ m.budget + eng.loopCharges H verifyStrict ctx fuel f = f.machine.budget)
      (eng.loop H verifyStrict ctx fuel f)
  | _, ⟨branchStack, m, []⟩, hf => by
    simp only [loop, loopCharges]
    split
    · exact ⟨hf, rfl⟩
    · exact id
  | 0, ⟨branchStack, m, op :: script⟩, hf => by
    simp only [loop, loopCharges]
    exact ⟨hf, rfl⟩
  | fuel + 1, ⟨branchStack, m, op :: script⟩, hf => by
    have hround : Bounded _ (eng.round H verifyStrict ctx op ⟨branchStack, m, script⟩) :=
      round_bounded (f := ⟨branchStack, m, script⟩) hf op
    rw [loop, loopCharges]
    cases hr : eng.round H verifyStrict ctx op ⟨branchStack, m, script⟩ with
    | error e => exact hround.of_error hr
    | ok f =>
      obtain ⟨hwithin, hbudget⟩ := hround.of_ok hr
      refine (loop_bounded fuel hwithin).mono fun m' hm' => ⟨hm'.1, ?_⟩
      show m'.budget + (roundCharges op _ + eng.loopCharges H verifyStrict ctx fuel f) = m.budget
      have hbudget : f.machine.budget + roundCharges op ⟨branchStack, m, script⟩ = m.budget := hbudget
      have hrest := hm'.2
      omega

/-- Charges come off the budget, also those of a run that fails. -/
theorem loopCharges_le : ∀ (fuel : Nat) {f : Frame}, f.machine.Within →
    eng.loopCharges H verifyStrict ctx fuel f ≤ f.machine.budget
  | _, ⟨branchStack, m, []⟩, _ => by
    simp only [loopCharges]
    exact Nat.zero_le _
  | 0, ⟨branchStack, m, op :: script⟩, _ => Nat.zero_le _
  | fuel + 1, ⟨branchStack, m, op :: script⟩, hf => by
    have hround : Bounded _ (eng.round H verifyStrict ctx op ⟨branchStack, m, script⟩) :=
      round_bounded (f := ⟨branchStack, m, script⟩) hf op
    rw [loopCharges]
    cases hr : eng.round H verifyStrict ctx op ⟨branchStack, m, script⟩ with
    | error e => exact roundCharges_le op ⟨branchStack, m, script⟩
    | ok f =>
      obtain ⟨hwithin, hbudget⟩ := hround.of_ok hr
      have hrest := loopCharges_le fuel hwithin
      show roundCharges op _ + eng.loopCharges H verifyStrict ctx fuel f ≤ m.budget
      have hbudget : f.machine.budget + roundCharges op ⟨branchStack, m, script⟩ = m.budget := hbudget
      omega

theorem loopFrames_within : ∀ (fuel : Nat) {f : Frame}, f.machine.Within →
    ∀ g ∈ eng.loopFrames H verifyStrict ctx fuel f, g.machine.Within
  | _, ⟨branchStack, m, []⟩, hf, g, hg => by
    simp only [loopFrames, List.mem_singleton] at hg
    exact hg ▸ hf
  | 0, ⟨branchStack, m, op :: script⟩, hf, g, hg => by
    simp only [loopFrames, List.mem_singleton] at hg
    exact hg ▸ hf
  | fuel + 1, ⟨branchStack, m, op :: script⟩, hf, g, hg => by
    have hround : Bounded _ (eng.round H verifyStrict ctx op ⟨branchStack, m, script⟩) :=
      round_bounded (f := ⟨branchStack, m, script⟩) hf op
    rw [loopFrames] at hg
    rcases List.mem_cons.mp hg with rfl | hg
    · exact hf
    · cases hr : eng.round H verifyStrict ctx op ⟨branchStack, m, script⟩ with
      | error e => simp [hr] at hg
      | ok f =>
        rw [hr] at hg
        exact loopFrames_within fuel (hround.of_ok hr).1 g hg

theorem executeScript_bounded (script : Bytes) {m : Machine} (hm : m.Within) :
    Bounded (fun m' => m'.Within ∧ m'.budget + eng.scriptCharges H verifyStrict ctx script m = m.budget)
      (eng.executeScript H verifyStrict ctx script m) :=
  loop_bounded script.length hm

/-- The default engine starts with an empty stack. -/
theorem start_within : Machine.Within ⟨[], ScriptEngine.new.maxOpsBudget⟩ :=
  ⟨Nat.le_of_eq (Nat.zero_add _), fun _ h => absurd h List.not_mem_nil⟩

theorem execute_bounded (unlockingScript lockingScript : Bytes) :
    Bounded (fun _ => True) (ScriptEngine.new.execute H verifyStrict ctx unlockingScript lockingScript) := by
  refine (executeScript_bounded unlockingScript start_within).bind fun m hm => ?_
  refine (executeScript_bounded lockingScript hm.1).bind fun m' hm' => ?_
  show Bounded _ (if m'.stack.isEmpty then _ else _)
  split
  · exact id
  · refine (small_rules.popBool hm'.1.small).bind fun r _ => ?_
    show Bounded _ (if r.1 then _ else _)
    split
    · exact trivial
    · exact id

theorem executeFrames_within (unlockingScript lockingScript : Bytes) :
    ∀ f ∈ ScriptEngine.new.executeFrames H verifyStrict ctx unlockingScript lockingScript, f.machine.Within := by
  intro f hf
  have hunlock : Bounded _ (ScriptEngine.new.executeScript H verifyStrict ctx unlockingScript _) :=
    executeScript_bounded unlockingScript start_within
  rcases List.mem_append.mp hf with hf | hf
  · exact loopFrames_within _ start_within f hf
  · cases hm : ScriptEngine.new.executeScript H verifyStrict ctx unlockingScript ⟨[], ScriptEngine.new.maxOpsBudget⟩ with
    | error e => simp [hm] at hf
    | ok m =>
      rw [hm] at hf
      exact loopFrames_within _ (hunlock.of_ok hm).1 f hf

theorem executeCharges_le (unlockingScript lockingScript : Bytes) :
    ScriptEngine.new.executeCharges H verifyStrict ctx unlockingScript lockingScript ≤ defaultMaxOpsBudget := by
  have hunlock : Bounded _ (ScriptEngine.new.executeScript H verifyStrict ctx unlockingScript _) :=
    executeScript_bounded unlockingScript start_within
  unfold executeCharges
  cases hm : ScriptEngine.new.executeScript H verifyStrict ctx unlockingScript ⟨[], ScriptEngine.new.maxOpsBudget⟩ with
  | error e => exact loopCharges_le _ start_within
  | ok m =>
    obtain ⟨hwithin, hbudget⟩ := hunlock.of_ok hm
    calc _ ≤ ScriptEngine.new.scriptCharges H verifyStrict ctx unlockingScript _ + m.budget :=
          Nat.add_le_add_left (loopCharges_le _ hwithin) _
      _ = defaultMaxOpsBudget := by rw [Nat.add_comm]; exact hbudget

/-- For every pair of scripts and every context: the default engine's stack never holds more
    than 512 items, no item is longer than 255 bytes, at most 256 operations are charged over
    both scripts, and no push meets a limit of the stack. -/
theorem script_bounds (unlockingScript lockingScript : Bytes) :
    (∀ f ∈ ScriptEngine.new.executeFrames H verifyStrict ctx unlockingScript lockingScript,
        f.machine.stack.length ≤ 512 ∧ ∀ item ∈ f.machine.stack, item.length ≤ 255) ∧
      ScriptEngine.new.executeCharges H verifyStrict ctx unlockingScript lockingScript ≤ 256 ∧
      ∀ e, ScriptEngine.new.execute H verifyStrict ctx unlockingScript lockingScript = .error e →
        (∀ max, e ≠ .stackOverflow max) ∧ ∀ size max, e ≠ .itemTooLarge size max := by
  refine ⟨?_, executeCharges_le unlockingScript lockingScript, ?_⟩
  · intro f hf
    obtain ⟨hdepth, hitems⟩ := executeFrames_within unlockingScript lockingScript f hf
    have hmax : 2 * defaultMaxOpsBudget = 512 := rfl
    exact ⟨by omega, hitems⟩
  · intro e he
    have hlimit := (execute_bounded unlockingScript lockingScript).of_error he
    constructor
    · rintro max rfl
      exact hlimit trivial
    · rintro size max rfl
      exact hlimit trivial

end ScriptEngine

end Scytale
