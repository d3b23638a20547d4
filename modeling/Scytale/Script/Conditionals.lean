/-
  Scytale.Script.Conditionals — a script as nested blocks
  (crates/scytale-script/src/engine.rs, execute_script).

  The loop knows a block by a vector of booleans. Here a script is read into blocks first
  (`parse`) and then run block by block: of the arms of an OP_IF every second one is run,
  the others are passed over (`Code.run`, `Arms.run`). What is read is listed from its
  end, so reading on appends to it.
  - `Outline.run_openIf`, `run_orElse`, `run_endIf`, `run_instr`: reading one instruction
    more is one more round of the loop.
  - `conditionals_structured`: the loop and the blocks are the same function, and
    conditionals are unbalanced exactly where the run gets to an OP_ELSE or OP_ENDIF
    outside a block or to the end inside one.
-/
import Scytale.Script.Rules

namespace Scytale

open Lib

/-! ## Blocks -/

open ScriptEngine in
/-- An instruction that is no conditional. -/
inductive Instr where
  | push (data : Bytes) (h : 0 < data.length ∧ data.length ≤ 75)
  | pushData1 (data : Bytes) (h : data.length ≤ 255)
  | op (byte : UInt8) (h : isPlain byte = true)

mutual

/-- Instructions and whole conditionals, one after the other. -/
inductive Code where
  | nil
  | instr (before : Code) (i : Instr)
  | cond (before : Code) (arms : Arms)

/-- What OP_ELSE parts within a conditional. -/
inductive Arms where
  | first (c : Code)
  | orElse (before : Arms) (c : Code)

end

/-- What is read up to a place in a script: in an open conditional the last of the arms is
    still being read. -/
inductive Outline where
  | top (c : Code)
  | inside (outer : Outline) (arms : Arms)

/-- A push whose bytes are not all there. -/
inductive Cut where
  | push (n : UInt8) (data : Bytes) (h : OpCode.isPushbytes n = true ∧ data.length < n.toNat)
  | pushData1
  | pushData1Data (n : UInt8) (data : Bytes) (h : data.length < n.toNat)

/-- A script: its blocks are balanced, or it ends in an open one, or it has an OP_ELSE or
    OP_ENDIF outside all blocks, or a push is cut off. -/
inductive Reading where
  | balanced (c : Code)
  | unclosed (outer : Outline) (arms : Arms)
  | unmatched (c : Code) (op : UInt8) (h : op = OpCode.OP_ELSE ∨ op = OpCode.OP_ENDIF) (script : Bytes)
  | truncated (o : Outline) (cut : Cut)

/-! ### As bytes -/

def Instr.bytes : Instr → Bytes
  | push data _ => UInt8.ofNat data.length :: data
  | pushData1 data _ => OpCode.OP_PUSHDATA1 :: UInt8.ofNat data.length :: data
  | op byte _ => [byte]

mutual

def Code.bytes : Code → Bytes
  | .nil => []
  | .instr before i => before.bytes ++ i.bytes
  | .cond before arms => before.bytes ++ OpCode.OP_IF :: (arms.bytes ++ [OpCode.OP_ENDIF])

def Arms.bytes : Arms → Bytes
  | .first c => c.bytes
  | .orElse before c => before.bytes ++ OpCode.OP_ELSE :: c.bytes

end

def Outline.bytes : Outline → Bytes
  | top c => c.bytes
  | inside outer arms => outer.bytes ++ OpCode.OP_IF :: arms.bytes

def Cut.bytes : Cut → Bytes
  | push n data _ => n :: data
  | pushData1 => [OpCode.OP_PUSHDATA1]
  | pushData1Data n data _ => OpCode.OP_PUSHDATA1 :: n :: data

def Reading.bytes : Reading → Bytes
  | balanced c => c.bytes
  | unclosed outer arms => (Outline.inside outer arms).bytes
  | unmatched c op _ script => c.bytes ++ op :: script
  | truncated o cut => o.bytes ++ cut.bytes

/-! ### Reading a script -/

/-- Appends to the arm that is being read. -/
def Arms.extend (f : Code → Code) : Arms → Arms
  | .first c => .first (f c)
  | .orElse before c => .orElse before (f c)

namespace Outline

/-- Appends to the code that is being read. -/
def extend (f : Code → Code) : Outline → Outline
  | top c => top (f c)
  | inside outer arms => inside outer (arms.extend f)

def instr (o : Outline) (i : Instr) : Outline := o.extend fun c => c.instr i

def cond (o : Outline) (arms : Arms) : Outline := o.extend fun c => c.cond arms

def openIf (o : Outline) : Outline := inside o (.first .nil)

/-- The end of the script. -/
def finish : Outline → Reading
  | top c => .balanced c
  | inside outer arms => .unclosed outer arms

end Outline

theorem isPlain_of {op : UInt8} (hif : op ≠ OpCode.OP_IF) (helse : op ≠ OpCode.OP_ELSE) (hend : op ≠ OpCode.OP_ENDIF)
    (hpush : ¬OpCode.isPushbytes op = true) (hdata : op ≠ OpCode.OP_PUSHDATA1) : ScriptEngine.isPlain op = true := by
  simp [ScriptEngine.isPlain, hif, helse, hend, hpush, hdata]

theorem isPushbytes_iff {op : UInt8} : OpCode.isPushbytes op = true ↔ 0 < op.toNat ∧ op.toNat ≤ 75 := by
  simp only [OpCode.isPushbytes, Bool.and_eq_true, decide_eq_true_eq, UInt8.le_iff_toNat_le]
  exact Iff.rfl

theorem take_push {op : UInt8} {script : Bytes} (hpush : OpCode.isPushbytes op = true) (h : ¬script.length < op.toNat) :
    0 < (script.take op.toNat).length ∧ (script.take op.toNat).length ≤ 75 := by
  rw [List.length_take_of_le (Nat.le_of_not_lt h)]
  exact isPushbytes_iff.mp hpush

theorem take_pushData1 (n : UInt8) (script : Bytes) : (script.take n.toNat).length ≤ 255 :=
  (List.length_take_le _ _).trans (Nat.le_of_lt_succ n.toNat_lt)

/-- Every byte read is a round of the loop; the script's length is fuel enough. -/
def parse : Nat → Outline → Bytes → Reading
  | _, o, [] => o.finish
  | 0, o, _ :: _ => o.finish
  | fuel + 1, o, op :: script =>
    if hif : op = OpCode.OP_IF then parse fuel o.openIf script
    else if helse : op = OpCode.OP_ELSE then
      match o with
      | .top c => .unmatched c op (.inl helse) script
      | .inside outer arms => parse fuel (.inside outer (arms.orElse .nil)) script
    else if hend : op = OpCode.OP_ENDIF then
      match o with
      | .top c => .unmatched c op (.inr hend) script
      | .inside outer arms => parse fuel (outer.cond arms) script
    else if hpush : OpCode.isPushbytes op = true then
      if h : script.length < op.toNat then .truncated o (.push op script ⟨hpush, h⟩)
      else parse fuel (o.instr (.push (script.take op.toNat) (take_push hpush h))) (script.drop op.toNat)
    else if hdata : op = OpCode.OP_PUSHDATA1 then
      match script with
      | [] => .truncated o .pushData1
      | n :: script =>
        if h : script.length < n.toNat then .truncated o (.pushData1Data n script h)
        else parse fuel (o.instr (.pushData1 (script.take n.toNat) (take_pushData1 n script))) (script.drop n.toNat)
    else parse fuel (o.instr (.op op (isPlain_of hif helse hend hpush hdata))) script

def Reading.ofScript (script : Bytes) : Reading := parse script.length (.top .nil) script

/-! ### Running what was read -/

def Cut.error : Cut → ScriptError
  | push n data _ => .scriptTruncated n.toNat data.length
  | pushData1 => .scriptTruncated 1 0
  | pushData1Data n data _ => .scriptTruncated n.toNat data.length

section
variable (eng : ScriptEngine) (H : Hasher) (verifyStrict : VerifyStrict) (ctx : ScriptContext)

def Instr.run (i : Instr) (m : Machine) : Except ScriptError Machine := do
  let m ← eng.charge m
  match i with
  | push data _ | pushData1 data _ =>
    let stack ← m.stack.push data
    return { m with stack }
  | op byte _ =>
    match OpCode.fromByte byte with
    | none => throw (.invalidOpCode byte)
    | some opcode =>
      let stack ← ScriptEngine.executeOpcode H verifyStrict ctx opcode m.stack
      return { m with stack }

/-- The condition of an OP_IF. -/
def condition (m : Machine) : Except ScriptError (Bool × Machine) := do
  let m ← eng.charge m
  let (cond, stack) ← m.stack.popBool
  return (cond, { m with stack })

/-- Whether the last arm is taken when the first is or is not. -/
def Arms.lastTaken (taken : Bool) : Arms → Bool
  | .first _ => taken
  | .orElse before _ => !before.lastTaken taken

mutual

def Code.run : Code → Machine → Except ScriptError Machine
  | .nil, m => .ok m
  | .instr before i, m => do
    let m ← before.run m
    i.run eng H verifyStrict ctx m
  | .cond before arms, m => do
    let m ← before.run m
    let (cond, m) ← condition eng m
    arms.run cond m

/-- An arm that is not taken leaves the machine alone. -/
def Arms.run : Arms → Bool → Machine → Except ScriptError Machine
  | .first c, taken, m => if taken then c.run m else .ok m
  | .orElse before c, taken, m => do
    let m ← before.run taken m
    if (Arms.orElse before c).lastTaken taken then c.run m else .ok m

end

/-- With the machine, which of the open arms are taken, the innermost first. -/
def Outline.run : Outline → Machine → Except ScriptError (List Bool × Machine)
  | top c, m => do
    let m ← c.run eng H verifyStrict ctx m
    return ([], m)
  | inside outer arms, m => do
    let (taken, m) ← outer.run m
    if taken.all id then do
      let (cond, m) ← condition eng m
      let m ← arms.run eng H verifyStrict ctx cond m
      return (arms.lastTaken cond :: taken, m)
    else return (false :: taken, m)

def Reading.run (m : Machine) : Reading → Except ScriptError Machine
  | balanced c => c.run eng H verifyStrict ctx m
  | unclosed outer arms => do
    let _ ← (Outline.inside outer arms).run eng H verifyStrict ctx m
    throw .unbalancedConditionals
  | unmatched c _ _ _ => do
    let _ ← c.run eng H verifyStrict ctx m
    throw .unbalancedConditionals
  | truncated o cut => do
    let _ ← o.run eng H verifyStrict ctx m
    throw cut.error

/-- The run gets, without an error, to an OP_ELSE or OP_ENDIF outside all blocks or to the
    end of the script inside one. -/
def Reading.ReachesUnbalanced (m : Machine) : Reading → Prop
  | balanced _ | truncated _ _ => False
  | unclosed outer arms => ∃ r, (Outline.inside outer arms).run eng H verifyStrict ctx m = .ok r
  | unmatched c _ _ _ => ∃ m', c.run eng H verifyStrict ctx m = .ok m'

end

/-! ## Nothing of the script is lost -/

theorem Arms.extend_bytes {f : Code → Code} {bs : Bytes} (hf : ∀ c, (f c).bytes = c.bytes ++ bs) (arms : Arms) :
    (arms.extend f).bytes = arms.bytes ++ bs := by
  cases arms with
  | first c => exact hf c
  | orElse before c => simp only [Arms.extend, Arms.bytes, hf, List.append_assoc, List.cons_append]

namespace Outline

theorem extend_bytes {f : Code → Code} {bs : Bytes} (hf : ∀ c, (f c).bytes = c.bytes ++ bs) (o : Outline) :
    (o.extend f).bytes = o.bytes ++ bs := by
  cases o with
  | top c => exact hf c
  | inside outer arms =>
    simp only [extend, Outline.bytes, Arms.extend_bytes hf, List.append_assoc, List.cons_append]

theorem instr_bytes (o : Outline) (i : Instr) : (o.instr i).bytes = o.bytes ++ i.bytes :=
  extend_bytes (fun _ => by rw [Code.bytes]) o

theorem openIf_bytes (o : Outline) : o.openIf.bytes = o.bytes ++ [OpCode.OP_IF] := by
  simp only [openIf, Outline.bytes, Arms.bytes, Code.bytes]

theorem orElse_bytes (outer : Outline) (arms : Arms) :
    (inside outer (arms.orElse .nil)).bytes = (inside outer arms).bytes ++ [OpCode.OP_ELSE] := by
  simp only [Outline.bytes, Arms.bytes, Code.bytes, List.append_assoc, List.cons_append]

theorem endIf_bytes (outer : Outline) (arms : Arms) :
    (outer.cond arms).bytes = (inside outer arms).bytes ++ [OpCode.OP_ENDIF] := by
  have hcond : ∀ c : Code, (c.cond arms).bytes = c.bytes ++ OpCode.OP_IF :: (arms.bytes ++ [OpCode.OP_ENDIF]) :=
    fun c => by rw [Code.bytes]
  rw [cond, extend_bytes hcond]
  simp only [Outline.bytes, List.append_assoc, List.cons_append]

theorem finish_bytes (o : Outline) : o.finish.bytes = o.bytes := by cases o <;> rfl

end Outline

/-- Fuel for what is behind a byte. -/
theorem length_behind {fuel : Nat} {op : UInt8} {script : Bytes} (h : (op :: script).length ≤ fuel + 1) : script.length ≤ fuel :=
  Nat.le_of_succ_le_succ h

/-- And for what is behind a push. -/
theorem length_drop_behind {fuel : Nat} {op : UInt8} {script : Bytes} (n : Nat) (h : (op :: script).length ≤ fuel + 1) :
    (script.drop n).length ≤ fuel := by
  rw [List.length_drop]
  exact (Nat.sub_le _ _).trans (length_behind h)

theorem parse_bytes (fuel : Nat) (o : Outline) (script : Bytes) (h : script.length ≤ fuel) :
    (parse fuel o script).bytes = o.bytes ++ script := by
  fun_induction parse fuel o script with
  | case1 fuel o => rw [Outline.finish_bytes, List.append_nil]
  | case2 o op script => exact absurd h (by simp)
  | case3 fuel o script ih => rw [ih (length_behind h), Outline.openIf_bytes, List.append_assoc, List.singleton_append]
  | case4 => rfl
  | case5 fuel script outer arms _ ih => rw [ih (length_behind h), Outline.orElse_bytes, List.append_assoc, List.singleton_append]
  | case6 => rfl
  | case7 fuel script outer arms _ _ ih => rw [ih (length_behind h), Outline.endIf_bytes, List.append_assoc, List.singleton_append]
  | case8 => rfl
  | case9 fuel o op script _ _ _ hpush hlen ih =>
    have hn : (script.take op.toNat).length = op.toNat := List.length_take_of_le (Nat.le_of_not_lt hlen)
    rw [ih (length_drop_behind op.toNat h), Outline.instr_bytes, Instr.bytes, hn, UInt8.ofNat_toNat, List.append_assoc,
      List.cons_append, List.take_append_drop]
  | case10 => rfl
  | case11 => rfl
  | case12 fuel o n script hlen _ _ _ _ ih =>
    have hn : (script.take n.toNat).length = n.toNat := List.length_take_of_le (Nat.le_of_not_lt hlen)
    rw [ih ((length_drop_behind (n.toNat + 1) h).trans_eq' rfl), Outline.instr_bytes, Instr.bytes, hn, UInt8.ofNat_toNat, List.append_assoc,
      List.cons_append, List.cons_append, List.take_append_drop]
  | case13 fuel o op script _ _ _ _ _ ih =>
    rw [ih (length_behind h), Outline.instr_bytes, Instr.bytes, List.append_assoc, List.singleton_append]

/-! ## One instruction more -/

section
variable {eng : ScriptEngine} {H : Hasher} {verifyStrict : VerifyStrict} {ctx : ScriptContext}

theorem Arms.extend_lastTaken (f : Code → Code) (arms : Arms) (taken : Bool) :
    (arms.extend f).lastTaken taken = arms.lastTaken taken := by
  cases arms <;> simp only [Arms.extend, Arms.lastTaken]

/-- What is appended to the arm that is read is run where that arm is taken. -/
theorem Arms.extend_run {f : Code → Code} {g : Machine → Except ScriptError Machine}
    (hf : ∀ c m, (f c).run eng H verifyStrict ctx m = c.run eng H verifyStrict ctx m >>= g) (arms : Arms) (taken : Bool)
    (m : Machine) : (arms.extend f).run eng H verifyStrict ctx taken m =
      arms.run eng H verifyStrict ctx taken m >>= fun m => if arms.lastTaken taken then g m else .ok m := by
  cases arms with
  | first c =>
    simp only [Arms.extend, Arms.run, Arms.lastTaken]
    cases taken with
    | false => rfl
    | true => exact hf c m
  | orElse before c =>
    simp only [Arms.extend, Arms.run, bind_assoc]
    refine bind_congr fun m => ?_
    show (if (Arms.orElse before c).lastTaken taken then (f c).run eng H verifyStrict ctx m else .ok m) = _
    by_cases hlast : (Arms.orElse before c).lastTaken taken = true
    · simp only [hlast, if_true, hf]
    · simp only [hlast]
      rfl

namespace Outline

theorem extend_run {f : Code → Code} {g : Machine → Except ScriptError Machine}
    (hf : ∀ c m, (f c).run eng H verifyStrict ctx m = c.run eng H verifyStrict ctx m >>= g) (o : Outline) (m : Machine) :
    (o.extend f).run eng H verifyStrict ctx m = o.run eng H verifyStrict ctx m >>= fun r =>
      if r.1.all id then do
        let m ← g r.2
        return (r.1, m)
      else .ok r := by
  cases o with
  | top c =>
    simp only [extend, Outline.run, hf, bind_assoc]
    rfl
  | inside outer arms =>
    simp only [extend, Outline.run, bind_assoc]
    refine bind_congr fun r => ?_
    by_cases htaken : r.1.all id = true
    · simp only [htaken, if_true, bind_assoc, Arms.extend_run hf, Arms.extend_lastTaken]
      refine bind_congr fun c => bind_congr fun m => ?_
      -- a new instruction is run in an arm that is taken, with all the arms around it
      have hall : ∀ last : Bool, (last :: r.1).all id = last := fun last => by
        rw [List.all_cons, htaken, Bool.and_true]
        rfl
      show (if arms.lastTaken c.1 then g m else .ok m) >>= _ = if (arms.lastTaken c.1 :: r.1).all id then _ else _
      rw [hall]
      by_cases hlast : arms.lastTaken c.1 = true
      · rw [if_pos hlast, if_pos hlast]
      · rw [if_neg hlast, if_neg hlast]
        rfl
    · simp only [htaken]
      rfl

/-- Reading an instruction. -/
theorem run_instr (o : Outline) (i : Instr) (m : Machine) :
    (o.instr i).run eng H verifyStrict ctx m = o.run eng H verifyStrict ctx m >>= fun r =>
      if r.1.all id then do
        let m ← i.run eng H verifyStrict ctx r.2
        return (r.1, m)
      else .ok r :=
  extend_run (fun c m => by rw [Code.run]) o m

/-- Reading an OP_IF. -/
theorem run_openIf (o : Outline) (m : Machine) :
    o.openIf.run eng H verifyStrict ctx m = o.run eng H verifyStrict ctx m >>= fun r =>
      if r.1.all id then do
        let (cond, m) ← condition eng r.2
        return (cond :: r.1, m)
      else return (false :: r.1, r.2) := by
  simp only [openIf, Outline.run]
  refine bind_congr fun r => ?_
  by_cases htaken : r.1.all id = true
  · simp only [htaken, if_true]
    refine bind_congr fun c => ?_
    have hrun : (Arms.first Code.nil).run eng H verifyStrict ctx c.1 c.2 = .ok c.2 := by
      cases c.1 <;> simp [Arms.run, Code.run]
    rw [hrun]
    rfl
  · rw [if_neg htaken, if_neg htaken]

/-- Reading an OP_ELSE. -/
theorem run_orElse (outer : Outline) (arms : Arms) (m : Machine) :
    (inside outer (arms.orElse .nil)).run eng H verifyStrict ctx m =
      (inside outer arms).run eng H verifyStrict ctx m >>= fun r =>
        match r.1 with
        | [] => .error .unbalancedConditionals
        | last :: taken => .ok (if taken.all id then (!last) :: taken else r.1, r.2) := by
  simp only [Outline.run, bind_assoc]
  refine bind_congr fun r => ?_
  by_cases htaken : r.1.all id = true
  · simp only [htaken, if_true, bind_assoc]
    refine bind_congr fun c => ?_
    simp only [Arms.run, bind_assoc]
    refine bind_congr fun m => ?_
    have hnil : Code.nil.run eng H verifyStrict ctx m = .ok m := by rw [Code.run]
    simp only [hnil, ite_self, pure_bind, htaken, if_true]
    rfl
  · rw [if_neg htaken, if_neg htaken, pure_bind]
    show _ = Except.ok (if r.1.all id then _ else _, r.2)
    rw [if_neg htaken]
    rfl

/-- Reading an OP_ENDIF. -/
theorem run_endIf (outer : Outline) (arms : Arms) (m : Machine) :
    (outer.cond arms).run eng H verifyStrict ctx m =
      (inside outer arms).run eng H verifyStrict ctx m >>= fun r =>
        match r.1 with
        | [] => .error .unbalancedConditionals
        | _ :: taken => .ok (taken, r.2) := by
  have hcond : ∀ c m, (Code.cond c arms).run eng H verifyStrict ctx m = c.run eng H verifyStrict ctx m >>= fun m =>
      condition eng m >>= fun r => arms.run eng H verifyStrict ctx r.1 r.2 := fun c m => by rw [Code.run]
  rw [cond, extend_run hcond]
  simp only [Outline.run, bind_assoc]
  refine bind_congr fun r => ?_
  by_cases htaken : r.1.all id = true
  · simp only [htaken, if_true, bind_assoc, pure_bind]
    rfl
  · rw [if_neg htaken, if_neg htaken]
    rfl

end Outline

/-! ## The loop -/

/-- A round of the loop on what the blocks left. -/
theorem run_round {o o' : Outline} {op : UInt8} {script script' : Bytes} {m : Machine}
    {step : List Bool × Machine → Except ScriptError (List Bool × Machine)}
    (hrun : o'.run eng H verifyStrict ctx m = o.run eng H verifyStrict ctx m >>= step)
    (hround : ∀ r, eng.round H verifyStrict ctx op ⟨r.1, r.2, script⟩ = step r >>= fun r => .ok ⟨r.1, r.2, script'⟩) :
    (o.run eng H verifyStrict ctx m >>= fun r => eng.run H verifyStrict ctx ⟨r.1, r.2, op :: script⟩) =
      o'.run eng H verifyStrict ctx m >>= fun r => eng.run H verifyStrict ctx ⟨r.1, r.2, script'⟩ := by
  rw [hrun, bind_assoc]
  refine bind_congr fun r => ?_
  rw [ScriptEngine.run_cons, hround, bind_assoc]
  rfl

/-- A push in the loop. -/
theorem pushData_step {i : Instr} {n : Nat} {f : Frame} {script : Bytes} (hlen : ¬script.length < n)
    (hi : i.run eng H verifyStrict ctx f.machine = do
      let m ← eng.charge f.machine
      let stack ← m.stack.push (script.take n)
      return { m with stack }) :
    eng.pushData f n script = (if f.branchStack.all id then do
        let m ← i.run eng H verifyStrict ctx f.machine
        return (f.branchStack, m)
      else .ok (f.branchStack, f.machine)) >>= fun r => .ok ⟨r.1, r.2, script.drop n⟩ := by
  rw [ScriptEngine.pushData, if_neg hlen, Frame.isActive]
  split
  · rw [hi]
    simp only [bind_assoc]
    rfl
  · rfl

/-- Any other instruction in the loop. -/
theorem plain_step {op : UInt8} (h : ScriptEngine.isPlain op = true) (f : Frame) :
    eng.round H verifyStrict ctx op f = (if f.branchStack.all id then do
        let m ← (Instr.op op h).run eng H verifyStrict ctx f.machine
        return (f.branchStack, m)
      else .ok (f.branchStack, f.machine)) >>= fun r => .ok ⟨r.1, r.2, f.script⟩ := by
  rw [ScriptEngine.round_plain h, Frame.isActive]
  by_cases htaken : f.branchStack.all id = true
  · simp only [htaken, Bool.not_true, Bool.false_eq_true, if_false, if_true, Instr.run, bind_assoc]
    refine bind_congr fun m => ?_
    cases OpCode.fromByte op with
    | none => rfl
    | some opcode => simp only [bind_assoc]; rfl
  · rw [if_neg htaken, if_pos (by simpa using htaken)]
    rfl

/-- In a block there is a vector of branches. -/
theorem Outline.inside_taken {outer : Outline} {arms : Arms} {m : Machine} {r : List Bool × Machine}
    (h : (Outline.inside outer arms).run eng H verifyStrict ctx m = .ok r) : r.1.isEmpty = false := by
  obtain ⟨⟨taken, m₁⟩, -, h⟩ := bind_eq_ok.mp h
  simp only at h
  split at h
  · obtain ⟨c, -, h⟩ := bind_eq_ok.mp h
    obtain ⟨m', -, h⟩ := bind_eq_ok.mp h
    cases h
    rfl
  · cases h
    rfl

theorem finish_run (o : Outline) (m : Machine) :
    (o.run eng H verifyStrict ctx m >>= fun r => eng.run H verifyStrict ctx ⟨r.1, r.2, []⟩) =
      o.finish.run eng H verifyStrict ctx m := by
  cases o with
  | top c =>
    simp only [Outline.run, Outline.finish, Reading.run, bind_assoc, pure_bind, ScriptEngine.run_nil]
    exact bind_pure _
  | inside outer arms =>
    refine bind_congr_ok fun r hr => ?_
    rw [ScriptEngine.run_nil, Outline.inside_taken hr]
    rfl

theorem unmatched_run {op : UInt8} (h : op = OpCode.OP_ELSE ∨ op = OpCode.OP_ENDIF) (c : Code) (script : Bytes) (m : Machine) :
    ((Outline.top c).run eng H verifyStrict ctx m >>= fun r => eng.run H verifyStrict ctx ⟨r.1, r.2, op :: script⟩) =
      (Reading.unmatched c op h script).run eng H verifyStrict ctx m := by
  simp only [Outline.run, Reading.run, bind_assoc, pure_bind, ScriptEngine.run_cons]
  refine bind_congr fun m => ?_
  rcases h with rfl | rfl
  · rw [ScriptEngine.round_else]
    rfl
  · rw [ScriptEngine.round_endif]
    rfl

theorem truncated_run {o : Outline} {op : UInt8} {script : Bytes} {m : Machine} {cut : Cut}
    (h : ∀ f : Frame, f.script = script → eng.round H verifyStrict ctx op f = .error cut.error) :
    (o.run eng H verifyStrict ctx m >>= fun r => eng.run H verifyStrict ctx ⟨r.1, r.2, op :: script⟩) =
      (Reading.truncated o cut).run eng H verifyStrict ctx m := by
  simp only [Reading.run]
  refine bind_congr fun r => ?_
  rw [ScriptEngine.run_cons, h _ rfl]
  rfl

theorem parse_run (fuel : Nat) (o : Outline) (script : Bytes) (m : Machine) (h : script.length ≤ fuel) :
    (o.run eng H verifyStrict ctx m >>= fun r => eng.run H verifyStrict ctx ⟨r.1, r.2, script⟩) =
      (parse fuel o script).run eng H verifyStrict ctx m := by
  fun_induction parse fuel o script with
  | case1 fuel o => exact finish_run o m
  | case2 o op script => exact absurd h (by simp)
  | case3 fuel o script ih =>
    rw [← ih (length_behind h)]
    refine run_round (Outline.run_openIf o m) fun r => ?_
    rw [ScriptEngine.round_if, Frame.isActive]
    split
    · simp only [condition, bind_assoc]
      rfl
    · rfl
  | case4 fuel script c _ => exact unmatched_run (.inl rfl) c script m
  | case5 fuel script outer arms _ ih =>
    rw [← ih (length_behind h)]
    refine run_round (Outline.run_orElse outer arms m) fun r => ?_
    rw [ScriptEngine.round_else]
    cases hr : r.1 with
    | nil => rfl
    | cons last taken =>
      show Except.ok _ = Except.ok _
      by_cases htaken : taken.all id = true
      · rw [if_pos htaken, if_pos htaken]
      · rw [if_neg htaken, if_neg htaken]
  | case6 fuel script c _ _ => exact unmatched_run (.inr rfl) c script m
  | case7 fuel script outer arms _ _ ih =>
    rw [← ih (length_behind h)]
    refine run_round (Outline.run_endIf outer arms m) fun r => ?_
    rw [ScriptEngine.round_endif]
    cases r.1 <;> rfl
  | case8 fuel o op script _ _ _ hpush hlen =>
    refine truncated_run fun f hf => ?_
    rw [ScriptEngine.round_pushbytes hpush, hf]
    exact if_pos hlen
  | case9 fuel o op script _ _ _ hpush hlen ih =>
    rw [← ih (length_drop_behind op.toNat h)]
    refine run_round (Outline.run_instr o _ m) fun r => ?_
    rw [ScriptEngine.round_pushbytes hpush]
    exact pushData_step hlen rfl
  | case10 fuel o =>
    refine truncated_run fun f hf => ?_
    rw [ScriptEngine.round_pushdata1, hf]
    rfl
  | case11 fuel o n script hlen =>
    refine truncated_run fun f hf => ?_
    rw [ScriptEngine.round_pushdata1, hf]
    exact if_pos hlen
  | case12 fuel o n script hlen _ _ _ _ ih =>
    have hn : (script.drop n.toNat).length ≤ fuel := length_drop_behind (n.toNat + 1) h
    rw [← ih hn]
    refine run_round (Outline.run_instr o _ m) fun r => ?_
    rw [ScriptEngine.round_pushdata1]
    exact pushData_step hlen rfl
  | case13 fuel o op script hif helse hend hpush hdata ih =>
    rw [← ih (length_behind h)]
    refine run_round (Outline.run_instr o _ m) fun r => ?_
    exact plain_step (isPlain_of hif helse hend hpush hdata) _

/-! ## Unbalanced conditionals -/

/-- Fails for other reasons only. -/
abbrev NotUnbalanced {α : Type} : Except ScriptError α → Prop :=
  Ensures (fun e => e ≠ ScriptError.unbalancedConditionals) fun _ => True

theorem notUnbalanced_rules (room : Nat) :
    StackRules (fun e => e ≠ .unbalancedConditionals) (fun n s => s.length ≤ n) (fun _ => True) room where
  errors _ _ h := h
  written _ _ := trivial
  mono hs h := Nat.le_trans hs h
  pop {n s} hs := by
    cases s with
    | nil => exact ScriptError.noConfusion
    | cons item s => exact ⟨trivial, Nat.lt_of_lt_of_le (Nat.succ_pos _) hs, Nat.le_sub_one_of_lt hs⟩
  push {n s} hs _ item _ := by
    unfold ScriptStack.push
    split
    · exact ScriptError.noConfusion
    · split
      · exact ScriptError.noConfusion
      · exact Nat.succ_le_succ hs

theorem push_notUnbalanced (s : ScriptStack) (item : Bytes) : NotUnbalanced (s.push item) :=
  ((notUnbalanced_rules (s.length + 1)).push (Nat.le_refl _) (Nat.lt_succ_self _) trivial).mono fun _ _ => trivial

theorem executeOpcode_notUnbalanced (opcode : OpCode) (s : ScriptStack) :
    NotUnbalanced (ScriptEngine.executeOpcode H verifyStrict ctx opcode s) :=
  ((notUnbalanced_rules (s.length + 2)).executeOpcode (Nat.le_refl _) (Nat.le_refl _) opcode).mono fun _ _ => trivial

theorem charge_notUnbalanced (m : Machine) : NotUnbalanced (eng.charge m) := by
  unfold ScriptEngine.charge
  split
  · exact ScriptError.noConfusion
  · exact trivial

theorem Instr.run_notUnbalanced (i : Instr) (m : Machine) : NotUnbalanced (i.run eng H verifyStrict ctx m) := by
  refine (charge_notUnbalanced m).bind fun m _ => ?_
  cases i with
  | push data | pushData1 data => exact (push_notUnbalanced m.stack data).bind fun _ _ => trivial
  | op byte =>
    dsimp only
    split
    · exact ScriptError.noConfusion
    · exact (executeOpcode_notUnbalanced _ m.stack).bind fun _ _ => trivial

theorem condition_notUnbalanced (m : Machine) : NotUnbalanced (condition eng m) :=
  (charge_notUnbalanced m).bind fun m _ => ((notUnbalanced_rules 0).popBool (Nat.le_refl m.stack.length)).bind fun _ _ => trivial

mutual

theorem Code.run_notUnbalanced : ∀ (c : Code) (m : Machine), NotUnbalanced (c.run eng H verifyStrict ctx m)
  | .nil, m => by rw [Code.run]; exact trivial
  | .instr before i, m => by
    rw [Code.run]
    exact (Code.run_notUnbalanced before m).bind fun m _ => i.run_notUnbalanced m
  | .cond before arms, m => by
    rw [Code.run]
    refine (Code.run_notUnbalanced before m).bind fun m _ => ?_
    exact (condition_notUnbalanced m).bind fun r _ => Arms.run_notUnbalanced arms r.1 r.2

theorem Arms.run_notUnbalanced : ∀ (arms : Arms) (taken : Bool) (m : Machine),
    NotUnbalanced (arms.run eng H verifyStrict ctx taken m)
  | .first c, taken, m => by
    rw [Arms.run]
    split
    · exact Code.run_notUnbalanced c m
    · exact trivial
  | .orElse before c, taken, m => by
    rw [Arms.run]
    refine (Arms.run_notUnbalanced before taken m).bind fun m _ => ?_
    split
    · exact Code.run_notUnbalanced c m
    · exact trivial

end

theorem Outline.run_notUnbalanced (o : Outline) (m : Machine) : NotUnbalanced (o.run eng H verifyStrict ctx m) := by
  induction o with
  | top c => exact (c.run_notUnbalanced m).bind fun _ _ => trivial
  | inside outer arms ih =>
    refine ih.bind fun r _ => ?_
    show NotUnbalanced (if r.1.all id then _ else _)
    split
    · exact (condition_notUnbalanced r.2).bind fun c _ => (arms.run_notUnbalanced c.1 c.2).bind fun _ _ => trivial
    · exact trivial

/-- What comes before the error. -/
theorem bind_throw_unbalanced_iff {α β : Type} {x : Except ScriptError α} (hx : NotUnbalanced x) :
    (x >>= fun _ => throw ScriptError.unbalancedConditionals) = (Except.error .unbalancedConditionals : Except _ β) ↔
      ∃ a, x = .ok a := by
  cases x with
  | ok a => exact ⟨fun _ => ⟨a, rfl⟩, fun _ => rfl⟩
  | error e =>
    constructor
    · rintro ⟨⟩
      exact absurd rfl hx
    · rintro ⟨a, ⟨⟩⟩

theorem Reading.run_unbalanced_iff (r : Reading) (m : Machine) :
    r.run eng H verifyStrict ctx m = .error .unbalancedConditionals ↔ r.ReachesUnbalanced eng H verifyStrict ctx m := by
  cases r with
  | balanced c => exact ⟨fun h => (c.run_notUnbalanced m).of_error h rfl, False.elim⟩
  | unclosed outer arms => exact bind_throw_unbalanced_iff ((Outline.inside outer arms).run_notUnbalanced m)
  | unmatched c => exact bind_throw_unbalanced_iff (c.run_notUnbalanced m)
  | truncated o cut =>
    have hcut : NotUnbalanced (throw cut.error : Except ScriptError Machine) := by cases cut <;> exact ScriptError.noConfusion
    exact ⟨fun h => ((o.run_notUnbalanced m).bind fun _ _ => hcut).of_error h rfl, False.elim⟩

/-- For every script, stack and budget: what is read is the whole script, the loop gives
    what its blocks give, and it answers unbalanced conditionals exactly when the run gets to
    an OP_ELSE or OP_ENDIF outside all blocks or to the end of the script inside one. -/
theorem conditionals_structured (script : Bytes) (m : Machine) :
    (Reading.ofScript script).bytes = script ∧
      eng.executeScript H verifyStrict ctx script m = (Reading.ofScript script).run eng H verifyStrict ctx m ∧
      (eng.executeScript H verifyStrict ctx script m = .error .unbalancedConditionals ↔
        (Reading.ofScript script).ReachesUnbalanced eng H verifyStrict ctx m) := by
  have hrun : eng.executeScript H verifyStrict ctx script m = (Reading.ofScript script).run eng H verifyStrict ctx m := by
    have hnil : (Outline.top .nil).run eng H verifyStrict ctx m = .ok ([], m) := by simp only [Outline.run, Code.run]; rfl
    have hparse : _ = (Reading.ofScript script).run eng H verifyStrict ctx m :=
      parse_run script.length (.top .nil) script m (Nat.le_refl _)
    rw [hnil] at hparse
    exact hparse
  refine ⟨?_, hrun, ?_⟩
  · rw [Reading.ofScript, parse_bytes _ _ _ (Nat.le_refl _), Outline.bytes, Code.bytes, List.nil_append]
  · rw [hrun]
    exact Reading.run_unbalanced_iff _ m

end

end Scytale
