/-
  Scytale.Script.Builder — scripts built push by push (crates/scytale-script/src/builder.rs).

  A byte string of 255 bytes or fewer is pushed whole; of a longer one the first 255 bytes
  are, though an item may have 520 (the comment beside the cut says so).
  - `executeScript_pushes`: a built script does its pushes one after the other, on any
    machine, with the cut and with the errors of the budget and the stack.
  - `pushes_left_iff`: the items left are those that were asked for exactly when none is
    longer than 255 bytes and the stack has room.
-/
import Scytale.Script.Engine
import Scytale.Blake3

namespace Scytale

open Lib

def OpCode.asByte : OpCode → UInt8
  | op0 => 0x00
  | opPushData1 => OP_PUSHDATA1
  | opInt value => 0x51 + (value - 1)
  | opIf => OP_IF
  | opElse => OP_ELSE
  | opEndIf => OP_ENDIF
  | opReturn => 0x6a
  | opDup => 0x73
  | opDrop => 0x75
  | opSwap => 0x76
  | opRot => 0x77
  | op2Dup => 0x78
  | opEqual => 0x87
  | opEqualVerify => 0x88
  | opAdd => 0x93
  | opSub => 0x94
  | opLessThan => 0x9b
  | opGreaterThan => 0x9c
  | opBlake3 => 0xa0
  | opCheckSig => 0xac
  | opCheckSigVerify => 0xad
  | opCheckLockTimeVerify => OP_CHECKLOCKTIMEVERIFY

structure ScriptBuilder where
  bytes : Bytes
  deriving DecidableEq

namespace ScriptBuilder

def new : ScriptBuilder := ⟨[]⟩

def pushOpcode (b : ScriptBuilder) (opcode : OpCode) : ScriptBuilder := ⟨b.bytes ++ [opcode.asByte]⟩

def pushData (b : ScriptBuilder) (data : Bytes) : ScriptBuilder :=
  if data.length = 0 then ⟨b.bytes ++ [OpCode.asByte .op0]⟩
  else if data.length ≤ 75 then ⟨b.bytes ++ UInt8.ofNat data.length :: data⟩
  else if data.length ≤ 255 then ⟨b.bytes ++ OpCode.OP_PUSHDATA1 :: UInt8.ofNat data.length :: data⟩
  else ⟨b.bytes ++ OpCode.OP_PUSHDATA1 :: 255 :: data.take 255⟩

def pushInt (b : ScriptBuilder) (val : Int) : ScriptBuilder :=
  if val = 0 then b.pushOpcode .op0
  else if 1 ≤ val ∧ val ≤ 16 then ⟨b.bytes ++ [0x51 + UInt8.ofNat (val - 1).toNat]⟩
  else b.pushData (itemOfInt val)

def build (b : ScriptBuilder) : Bytes := b.bytes

end ScriptBuilder

/-! ## Pushes -/

/-- A push asked of the builder. -/
inductive Push where
  | data (data : Bytes)
  | int (val : Int)
  deriving DecidableEq

namespace Push

/-- The arguments the builder is for: an item the stack takes, a 64-bit integer. -/
def InRange : Push → Prop
  | data d => d.length ≤ maxItemSize
  | int val => -2 ^ 63 ≤ val ∧ val < 2 ^ 63

/-- The item that was asked for: the bytes themselves, or bytes that read as the integer. -/
def Reads : Push → Bytes → Prop
  | data d, item => item = d
  | int val, item => ∀ s : ScriptStack, ScriptStack.popInt (item :: s) = .ok (val, s)

def onto (b : ScriptBuilder) : Push → ScriptBuilder
  | data d => b.pushData d
  | int val => b.pushInt val

/-- The script of a list of pushes. -/
def script (pushes : List Push) : Bytes := (pushes.foldl onto ScriptBuilder.new).build

/-- The item a push leaves. -/
def item : Push → Bytes
  | data d => d.take 255
  | int val => if val = 0 then [] else itemOfInt val

end Push

namespace ScriptBuilder

/-- The bytes of a push. -/
def pushBytes (data : Bytes) : Bytes := (new.pushData data).bytes

theorem pushData_bytes (b : ScriptBuilder) (data : Bytes) : (b.pushData data).bytes = b.bytes ++ pushBytes data := by
  unfold pushBytes pushData
  split
  · rfl
  · split
    · rfl
    · split <;> rfl

theorem pushInt_bytes (b : ScriptBuilder) (val : Int) :
    (b.pushInt val).bytes = b.bytes ++ (new.pushInt val).bytes := by
  unfold pushInt
  split
  · rfl
  · split
    · rfl
    · exact pushData_bytes b (itemOfInt val)

end ScriptBuilder

namespace Push

/-- The bytes a push appends. -/
def bytes (p : Push) : Bytes := (p.onto ScriptBuilder.new).bytes

theorem onto_bytes (b : ScriptBuilder) (p : Push) : (onto b p).bytes = b.bytes ++ p.bytes := by
  cases p with
  | data d => exact b.pushData_bytes d
  | int val => exact b.pushInt_bytes val

theorem foldl_onto_bytes (pushes : List Push) : ∀ b : ScriptBuilder,
    (pushes.foldl onto b).bytes = b.bytes ++ pushes.flatMap bytes := by
  induction pushes with
  | nil => intro b; exact (List.append_nil _).symm
  | cons p pushes ih =>
    intro b
    rw [List.foldl_cons, ih, onto_bytes, List.flatMap_cons, List.append_assoc]

theorem script_eq (pushes : List Push) : script pushes = pushes.flatMap bytes :=
  foldl_onto_bytes pushes ScriptBuilder.new

end Push

/-! ## Running the pushes -/

namespace ScriptEngine

section
variable {eng : ScriptEngine} {H : Hasher} {verifyStrict : VerifyStrict} {ctx : ScriptContext}

/-- Charges an operation and puts an item on the stack. -/
def pushItem (eng : ScriptEngine) (item : Bytes) (m : Machine) : Except ScriptError Machine := do
  let m ← eng.charge m
  let stack ← m.stack.push item
  return { m with stack }

/-- Bytes that are all there, outside conditionals. -/
theorem pushData_append (m : Machine) (data rest script : Bytes) :
    eng.pushData ⟨[], m, script⟩ data.length (data ++ rest) = eng.pushItem data m >>= fun m => .ok ⟨[], m, rest⟩ := by
  have hlen : ¬(data ++ rest).length < data.length := by simp
  rw [pushData, if_neg hlen]
  simp only [Frame.isActive, List.all_nil, if_true, pushItem, bind_assoc, List.take_left, List.drop_left]
  rfl

/-- An instruction outside conditionals. -/
theorem run_opcode {op : UInt8} {opcode : OpCode} (hplain : isPlain op = true) (h : OpCode.fromByte op = some opcode)
    (m : Machine) (rest : Bytes) : eng.run H verifyStrict ctx ⟨[], m, op :: rest⟩ = (do
      let m ← eng.charge m
      let stack ← executeOpcode H verifyStrict ctx opcode m.stack
      eng.run H verifyStrict ctx ⟨[], { m with stack }, rest⟩) := by
  rw [run_cons, round_plain hplain]
  simp only [Frame.isActive, List.all_nil, Bool.not_true, Bool.false_eq_true, if_false, h, bind_assoc]
  rfl

/-- The bytes of a push, outside conditionals. -/
theorem run_pushBytes (data rest : Bytes) (m : Machine) :
    eng.run H verifyStrict ctx ⟨[], m, ScriptBuilder.pushBytes data ++ rest⟩ =
      eng.pushItem (data.take 255) m >>= fun m => eng.run H verifyStrict ctx ⟨[], m, rest⟩ := by
  have hbyte : ∀ {n : Nat}, n ≤ 255 → (UInt8.ofNat n).toNat = n := fun h => UInt8.toNat_ofNat_of_lt' (Nat.lt_succ_of_le h)
  have hdata1 : ∀ d : Bytes, d.length ≤ 255 →
      eng.run H verifyStrict ctx ⟨[], m, OpCode.OP_PUSHDATA1 :: UInt8.ofNat d.length :: d ++ rest⟩ =
        eng.pushItem d m >>= fun m => eng.run H verifyStrict ctx ⟨[], m, rest⟩ := by
    intro d hd
    show eng.run H verifyStrict ctx ⟨[], m, OpCode.OP_PUSHDATA1 :: UInt8.ofNat d.length :: (d ++ rest)⟩ = _
    rw [run_cons, round_pushdata1]
    show eng.pushData _ (UInt8.ofNat d.length).toNat (d ++ rest) >>= _ = _
    rw [hbyte hd, pushData_append, bind_assoc]
    rfl
  show eng.run H verifyStrict ctx ⟨[], m, (ScriptBuilder.new.pushData data).bytes ++ rest⟩ = _
  unfold ScriptBuilder.pushData
  split
  · rename_i hempty
    obtain rfl := List.length_eq_zero_iff.mp hempty
    rw [show ([] : Bytes).take 255 = [] from rfl]
    show eng.run H verifyStrict ctx ⟨[], m, 0x00 :: rest⟩ = _
    have hop0 : OpCode.fromByte 0x00 = some .op0 := by decide
    rw [run_opcode (by decide) hop0, pushItem]
    simp only [bind_assoc]
    rfl
  · rename_i hne
    split
    · rename_i hshort
      have hlen : (UInt8.ofNat data.length).toNat = data.length := hbyte (by omega)
      have hpush : OpCode.isPushbytes (UInt8.ofNat data.length) = true := by
        simp only [OpCode.isPushbytes, Bool.and_eq_true, decide_eq_true_eq, UInt8.le_iff_toNat_le, hlen]
        exact ⟨Nat.pos_of_ne_zero hne, hshort⟩
      show eng.run H verifyStrict ctx ⟨[], m, UInt8.ofNat data.length :: (data ++ rest)⟩ = _
      rw [run_cons, round_pushbytes hpush, hlen, pushData_append, bind_assoc, List.take_of_length_le (by omega)]
      rfl
    · split
      · rename_i hlong
        rw [List.take_of_length_le hlong]
        exact hdata1 data hlong
      · rename_i hcut
        have hlen : (data.take 255).length = 255 := List.length_take_of_le (by omega)
        have hcutData := hdata1 (data.take 255) (Nat.le_of_eq hlen)
        rw [hlen] at hcutData
        exact hcutData

theorem run_push (p : Push) (rest : Bytes) (m : Machine) :
    eng.run H verifyStrict ctx ⟨[], m, p.bytes ++ rest⟩ =
      eng.pushItem p.item m >>= fun m => eng.run H verifyStrict ctx ⟨[], m, rest⟩ := by
  cases p with
  | data d => exact run_pushBytes d rest m
  | int val =>
    rw [Push.bytes, Push.onto, ScriptBuilder.pushInt, Push.item]
    split
    · -- the builder's OP_0 is the push of no bytes
      exact run_pushBytes [] rest m
    · split
      · rename_i hsmall
        have hall : ∀ n : Fin 16, isPlain (0x51 + UInt8.ofNat n) = true ∧
            OpCode.fromByte (0x51 + UInt8.ofNat n) = some (.opInt (UInt8.ofNat (n + 1))) := by decide
        obtain ⟨n, rfl⟩ : ∃ n : Fin 16, val = n + 1 := ⟨⟨(val - 1).toNat, by omega⟩, by simp only; omega⟩
        have hval : ((n : Int) + 1 - 1).toNat = n := by omega
        have hop : (UInt8.ofNat (n + 1)).toNat = n + 1 := UInt8.toNat_ofNat_of_lt' (show (n : Nat) + 1 < 256 by omega)
        show eng.run H verifyStrict ctx ⟨[], m, (0x51 + UInt8.ofNat ((n : Int) + 1 - 1).toNat) :: rest⟩ = _
        rw [hval, run_opcode (hall n).1 (hall n).2, pushItem]
        simp only [bind_assoc, executeOpcode, ScriptStack.pushInt, hop]
        rfl
      · rw [← List.take_of_length_le (show (itemOfInt val).length ≤ 255 by simp [itemOfInt])]
        exact run_pushBytes (itemOfInt val) rest m

/-- A built script does its pushes one after the other. -/
theorem executeScript_pushes (pushes : List Push) : ∀ m : Machine,
    eng.executeScript H verifyStrict ctx (Push.script pushes) m =
      pushes.foldlM (fun m p => eng.pushItem p.item m) m := by
  rw [Push.script_eq]
  induction pushes with
  | nil => intro m; exact run_nil [] m
  | cons p pushes ih =>
    intro m
    rw [executeScript_eq_run, List.flatMap_cons, run_push, List.foldlM_cons]
    exact bind_congr fun m => ih m

theorem charge_eq_ok {m m' : Machine} :
    eng.charge m = .ok m' ↔ m.budget ≠ 0 ∧ m' = { m with budget := m.budget - 1 } := by
  unfold charge
  split
  · simp [*]
  · simp [*, eq_comm]

theorem push_eq_ok {s s' : ScriptStack} {item : Bytes} :
    s.push item = .ok s' ↔ (s.length < maxStackDepth ∧ item.length ≤ maxItemSize) ∧ s' = item :: s := by
  unfold ScriptStack.push
  split
  · simp; omega
  · split
    · simp; omega
    · simp only [Except.ok.injEq, eq_comm (b := s')]
      exact ⟨fun h => ⟨⟨by omega, by omega⟩, h⟩, And.right⟩

theorem pushItem_eq_ok {item : Bytes} {m m' : Machine} : eng.pushItem item m = .ok m' ↔
    (m.budget ≠ 0 ∧ m.stack.length < maxStackDepth ∧ item.length ≤ maxItemSize) ∧ m' = ⟨item :: m.stack, m.budget - 1⟩ := by
  simp only [pushItem, bind_eq_ok, charge_eq_ok, push_eq_ok]
  constructor
  · rintro ⟨m₁, ⟨hbudget, rfl⟩, s, ⟨hfits, rfl⟩, h⟩
    cases h
    exact ⟨⟨hbudget, hfits⟩, rfl⟩
  · rintro ⟨⟨hbudget, hfits⟩, rfl⟩
    exact ⟨_, ⟨hbudget, rfl⟩, _, ⟨hfits, rfl⟩, rfl⟩

end

end ScriptEngine

/-! ## What is left on the stack -/

theorem intOfItem_itemOfInt {val : Int} (h : -2 ^ 63 ≤ val ∧ val < 2 ^ 63) : intOfItem (itemOfInt val) = val := by
  obtain ⟨hlow, hhigh⟩ := h
  have hmod : leNat (itemOfInt val) = (val % 2 ^ 64).toNat := by
    rw [itemOfInt, leNat_leBytes, Nat.mod_eq_of_lt (by omega)]
  unfold intOfItem
  rw [hmod]
  by_cases hneg : 0 ≤ val
  · rw [if_pos (by omega)]
    omega
  · rw [if_neg (by omega)]
    omega

namespace Push

theorem item_length (p : Push) : p.item.length ≤ 255 := by
  cases p with
  | data d => exact List.length_take_le 255 d
  | int val =>
    rw [item]
    split <;> simp [itemOfInt]

/-- The item a push leaves is the one asked for, unless it was cut. -/
theorem reads_item_iff {p : Push} (hp : p.InRange) : p.Reads p.item ↔ ∀ d, p = .data d → d.length ≤ 255 := by
  cases p with
  | data d =>
    show d.take 255 = d ↔ _
    rw [List.take_eq_self_iff]
    exact ⟨fun h _ hd => Push.data.inj hd ▸ h, fun h => h d rfl⟩
  | int val =>
    refine ⟨fun _ _ hd => (nomatch hd), fun _ s => ?_⟩
    show ScriptStack.popInt ((if val = 0 then [] else itemOfInt val) :: s) = _
    split
    · rename_i hzero
      rw [hzero]
      rfl
    · show (if (itemOfInt val).length > 8 then throw (.invalidInteger (itemOfInt val).length)
      else Except.ok (intOfItem (itemOfInt val), s)) = _
      rw [if_neg (by simp [itemOfInt]), intOfItem_itemOfInt hp]

variable {eng : ScriptEngine}

/-- The pushes of a script on a machine with the budget for them. -/
theorem foldlM_pushItem {m' : Machine} (pushes : List Push) : ∀ {m : Machine}, pushes.length ≤ m.budget →
    (pushes.foldlM (fun m p => eng.pushItem p.item m) m = .ok m' ↔
      (pushes = [] ∨ m.stack.length + pushes.length ≤ maxStackDepth) ∧
        m' = ⟨(pushes.map item).reverse ++ m.stack, m.budget - pushes.length⟩) := by
  induction pushes with
  | nil =>
    intro m _
    simp only [List.foldlM_nil]
    constructor
    · rintro ⟨⟩
      exact ⟨.inl trivial, rfl⟩
    · rintro ⟨-, rfl⟩
      rfl
  | cons p pushes ih =>
    intro m hbudget
    rw [List.length_cons] at hbudget
    have hitem : p.item.length ≤ maxItemSize := p.item_length.trans (by decide)
    have hrest : ∀ m₁ : Machine, m₁ = ⟨p.item :: m.stack, m.budget - 1⟩ →
        (pushes.foldlM (fun m p => eng.pushItem p.item m) m₁ = .ok m' ↔
          (pushes = [] ∨ m.stack.length + 1 + pushes.length ≤ maxStackDepth) ∧
            m' = ⟨((p :: pushes).map item).reverse ++ m.stack, m.budget - (p :: pushes).length⟩) := by
      rintro m₁ rfl
      rw [ih (show pushes.length ≤ m.budget - 1 by omega), List.map_cons, List.reverse_cons, List.append_assoc,
        List.singleton_append, List.length_cons, Nat.sub_sub, Nat.add_comm 1]
      exact Iff.rfl
    have hempty : pushes = [] → pushes.length = 0 := fun h => by rw [h]; rfl
    simp only [List.foldlM_cons, bind_eq_ok, ScriptEngine.pushItem_eq_ok]
    constructor
    · rintro ⟨m₁, ⟨⟨-, hdepth, -⟩, heq⟩, hfold⟩
      obtain ⟨hroom, hm'⟩ := (hrest m₁ heq).mp hfold
      refine ⟨.inr ?_, hm'⟩
      rw [List.length_cons]
      rcases hroom with hnil | hroom
      · have := hempty hnil
        omega
      · omega
    · rintro ⟨hroom, hm'⟩
      have hroom : m.stack.length + (pushes.length + 1) ≤ maxStackDepth := hroom.resolve_left (List.cons_ne_nil _ _)
      exact ⟨_, ⟨⟨by omega, by omega, hitem⟩, rfl⟩, (hrest _ rfl).mpr ⟨.inr (by omega), hm'⟩⟩

end Push

section
variable {eng : ScriptEngine} {H : Hasher} {verifyStrict : VerifyStrict} {ctx : ScriptContext}

/-- For every machine and all pushes it has the budget for: the built script succeeds and
    leaves, in order, exactly what was asked for if and only if no byte string is longer than
    255 bytes and the stack has room for the items. -/
theorem pushes_left_iff {pushes : List Push} {m : Machine} (hrange : ∀ p ∈ pushes, p.InRange)
    (hbudget : pushes.length ≤ m.budget) :
    (∃ m' left, eng.executeScript H verifyStrict ctx (Push.script pushes) m = .ok m' ∧
        m'.stack = left.reverse ++ m.stack ∧ List.Forall₂ Push.Reads pushes left) ↔
      (∀ d, .data d ∈ pushes → d.length ≤ 255) ∧ (pushes = [] ∨ m.stack.length + pushes.length ≤ maxStackDepth) := by
  have hreads : List.Forall₂ Push.Reads pushes (pushes.map Push.item) ↔ ∀ d, .data d ∈ pushes → d.length ≤ 255 := by
    rw [List.forall₂_map_right_iff, List.forall₂_same]
    constructor
    · intro h d hd
      exact (Push.reads_item_iff (hrange _ hd)).mp (h _ hd) d rfl
    · intro h p hp
      refine (Push.reads_item_iff (hrange p hp)).mpr fun d hd => h d ?_
      rw [← hd]
      exact hp
  simp only [ScriptEngine.executeScript_pushes, Push.foldlM_pushItem pushes hbudget]
  constructor
  · rintro ⟨m', left, ⟨hroom, rfl⟩, hstack, hleft⟩
    obtain rfl : pushes.map Push.item = left := List.reverse_injective (List.append_cancel_right hstack)
    exact ⟨hreads.mp hleft, hroom⟩
  · rintro ⟨hshort, hroom⟩
    exact ⟨_, pushes.map Push.item, ⟨hroom, rfl⟩, rfl, hreads.mpr hshort⟩

end

/-! ### Both sides of the cut -/

/-- A context. -/
def atHeight (height : UInt64) : ScriptContext := ⟨Hash256.zero, height⟩

theorem pushes_left_iff_three : ∃ m' left, ScriptEngine.new.executeScript Blake3.digest (fun _ _ _ => false) (atHeight 1)
    (Push.script [.data [7], .int 300, .int 5]) ⟨[], 256⟩ = .ok m' ∧
      m'.stack = left.reverse ++ [] ∧ List.Forall₂ Push.Reads [.data [7], .int 300, .int 5] left :=
  (pushes_left_iff (by simp [Push.InRange, maxItemSize]) (by decide)).mpr ⟨by simp, .inr (by decide)⟩

/-- 256 bytes are within the limit of an item, and 255 of them are left. -/
theorem long_push_cut : ¬∃ m' left, ScriptEngine.new.executeScript Blake3.digest (fun _ _ _ => false) (atHeight 1)
    (Push.script [.data (List.replicate 256 7)]) ⟨[], 256⟩ = .ok m' ∧
      m'.stack = left.reverse ++ [] ∧ List.Forall₂ Push.Reads [.data (List.replicate 256 7)] left := by
  have hrun : ScriptEngine.new.executeScript Blake3.digest (fun _ _ _ => false) (atHeight 1)
      (Push.script [.data (List.replicate 256 7)]) ⟨[], 256⟩ = .ok ⟨[List.replicate 255 7], 255⟩ := by decide +kernel
  rintro ⟨m', left, hm', hstack, hleft⟩
  cases hrun.symm.trans hm'
  obtain ⟨item, hitem, rfl⟩ : ∃ item, item = List.replicate 256 7 ∧ left = [item] := by
    cases hleft with
    | cons hread hnil =>
      cases hnil
      exact ⟨_, hread, rfl⟩
  have hlen := congrArg List.length (List.cons.inj hstack).1
  rw [hitem, List.length_replicate, List.length_replicate] at hlen
  exact absurd hlen (by decide)

end Scytale
