import Sipc.Codegen.Module
import Sipc.Library.BasicBlocks

/-!
# The execution of modules

The meaning of the modules that `ASTProgram::codegen` makes, linked with `tip_rtlib.c`. A register or a
word of memory holds a `Datum`: an integer of 64 bits, an address, or a function. An address is a place
in a `Region`, of which every `alloca` and every call of `calloc` makes a new one, and the conversions
between pointers and integers keep it. A truth value is the word 0 or 1. `_tip_ftable` and
`_tip_input_array` are the regions 0 and 1.

What the source language has no meaning for leaves the machine stuck. Two kinds of undefined behavior
that it does have a meaning for halt the machine instead: an access to a slot of a function that has
returned, and the division of the least integer by -1. `calloc` is assumed to find memory.
-/

set_option autoImplicit false
set_option relaxedAutoImplicit false

namespace Sipc.Llvm

open IR (BinaryInstr Predicate Label)
open Library Machine

/-- What a register or a word of memory holds. -/
inductive Datum
  | word (w : Word)
  | address (region : ℕ) (offset : ℤ)
  | code (function : ℕ)
  | undefined
  deriving DecidableEq, Repr

/-- A piece of memory. The slots of a function are gone when it returns. -/
structure Region where
  words : List Datum
  isLive : Bool

/-- A function that is running. -/
structure Activation where
  function : ℕ
  block : Label
  /-- How many instructions of the block are behind. -/
  position : ℕ
  /-- The block that control came from. -/
  previous : Label
  args : List Datum
  registers : ℕ → Datum
  /-- The regions that end with the activation. -/
  slots : List ℕ

/-- A running program. A caller waits with the number of its call. -/
structure Process where
  top : Activation
  callers : List (ℕ × Activation)
  memory : List Region
  /-- The numbers that `_tip_input` will read. -/
  input : ℕ → Word
  output : List Word

/-- Undefined behavior that the source language has a meaning for. -/
inductive UndefinedBehavior
  | deadSlot
  | divisionOverflow
  deriving DecidableEq, Repr

/-- How a program ends. -/
inductive Stop
  | returned (d : Datum)
  /-- `exit(-1)` of the runtime library. -/
  | error
  | undefined (u : UndefinedBehavior)
  deriving DecidableEq, Repr

/-- The blocks of a function of the module. -/
def Module.code (m : Module) (k : ℕ) : List Block :=
  (m.functions[k]?.map Function.blocks).getD []

/-! ### Values -/

namespace Datum

def ofBool (b : Bool) : Datum :=
  .word (if b then 1 else 0)

/-- An operation on integers. -/
def binary (op : BinaryInstr) : Datum → Datum → Option Datum
  | .word l, .word r => (op.eval l r).map word
  | _, _ => none

/-- The quotient does not fit. -/
def overflows (op : BinaryInstr) (l r : Datum) : Prop :=
  (op = .sdiv ∨ op = .srem) ∧ l = .word (BitVec.intMin 64) ∧ r = .word (-1)

instance (op : BinaryInstr) (l r : Datum) : Decidable (overflows op l r) :=
  inferInstanceAs (Decidable (_ ∧ _ ∧ _))

/-- Addresses are only compared for equality. No address is 0. -/
def compare : Predicate → Datum → Datum → Option Bool
  | p, .word l, .word r => some (p.eval l r)
  | .eq, .address b o, .address b' o' => some (decide (b = b' ∧ o = o'))
  | .ne, .address b o, .address b' o' => some (decide ¬ (b = b' ∧ o = o'))
  | .eq, .address _ _, .word w | .eq, .word w, .address _ _ => if w = 0 then some false else none
  | .ne, .address _ _, .word w | .ne, .word w, .address _ _ => if w = 0 then some true else none
  | _, _, _ => none

/-- An address some words further. -/
def move : Datum → ℤ → Option Datum
  | .address b o, n => some (.address b (o + n))
  | _, _ => none

def word? : Datum → Option Word
  | .word w => some w
  | _ => none

end Datum

/-! ### Memory -/

/-- What is at an address. -/
def wordAt (memory : List Region) (b : ℕ) (o : ℤ) : Option Datum :=
  if 0 ≤ o then memory[b]?.bind fun r ↦ r.words[o.toNat]? else none

/-- The region belonged to a function that has returned. -/
def isDead (memory : List Region) (b : ℕ) : Bool :=
  memory[b]?.any fun r ↦ !r.isLive

def setWord (memory : List Region) (b : ℕ) (o : ℤ) (d : Datum) : List Region :=
  memory.modify b fun r ↦ { r with words := r.words.set o.toNat d }

/-- The regions are gone. -/
def free (memory : List Region) (slots : List ℕ) : List Region :=
  memory.mapIdx fun b r ↦ if b ∈ slots then { r with isLive := false } else r

/-- What is in a new slot. -/
def AllocaType.words : AllocaType → List Datum
  | .int | .pointer => [.undefined]
  | .record n => List.replicate n .undefined

/-! ### Instructions -/

namespace Process

def operand (c : Process) : Operand → Datum
  | .const w => .word w
  | .null => .word 0
  | .arg i => c.top.args.getD i .undefined
  | .result id _ => c.top.registers id

/-- Sets the register, and goes on in the block. -/
def finish (c : Process) (id : ℕ) (d : Datum) : Process :=
  { c with
    top := { c.top with
      position := c.top.position + 1
      registers := Function.update c.top.registers id d } }

/-- Goes on with another block. -/
def goto (c : Process) (id : ℕ) (l : Label) : Process :=
  { c with
    top := { c.top with
      block := l
      position := 0
      previous := c.top.block
      registers := Function.update c.top.registers id .undefined } }

/-- The value of an instruction that only computes. -/
def compute (c : Process) : Instruction → Option Datum
  | .binary op l r => Datum.binary op (c.operand l) (c.operand r)
  | .icmp p l r => (Datum.compare p (c.operand l) (c.operand r)).map Datum.ofBool
  | .zext v => (c.operand v).word?.map .word
  | .intToPtr v | .ptrToInt v => some (c.operand v)
  | .elementPtr v w => (c.operand w).word?.bind fun i ↦ (c.operand v).move i.toInt
  | .fieldPtr v i => (c.operand v).move i
  | .functionTablePtr v => (c.operand v).word?.map fun i ↦ .address 0 i.toInt
  | .inputPtr i => some (.address 1 i)
  | .phi incoming => (incoming.find? fun p ↦ p.2 = c.top.previous).map fun p ↦ c.operand p.1
  | _ => none

def load (c : Process) (id : ℕ) : Datum → Outcome Process (List Word × Stop)
  | .address b o =>
    if isDead c.memory b then .halt (c.output, .undefined .deadSlot)
    else
      match wordAt c.memory b o with
      | some d => .next (c.finish id d)
      | none => .stuck
  | _ => .stuck

def store (c : Process) (id : ℕ) (d : Datum) : Datum → Outcome Process (List Word × Stop)
  | .address b o =>
    if isDead c.memory b then .halt (c.output, .undefined .deadSlot)
    else if (wordAt c.memory b o).isSome then
      .next (finish { c with memory := setWord c.memory b o d } id .undefined)
    else .stuck
  | _ => .stuck

/-- Adds a region, and goes on with its address. -/
def allocate (c : Process) (id : ℕ) (words : List Datum) : Process :=
  finish { c with memory := c.memory ++ [⟨words, true⟩] } id (.address c.memory.length 0)

/-- The functions that the module does not define. -/
def runtime (c : Process) (id : ℕ) (name : String) (args : List Datum) :
    Outcome Process (List Word × Stop) :=
  match args with
  | [] =>
    if name = "llvm.donothing" then .next (c.finish id .undefined)
    else if name = "_tip_input" then
      .next (finish { c with input := fun i ↦ c.input (i + 1) } id (.word (c.input 0)))
    else if name = "_tip_main_undefined" then .halt (c.output, .error)
    else .stuck
  | [.word w] =>
    if name = "_tip_output" then .next (finish { c with output := c.output ++ [w] } id .undefined)
    else if name = "_tip_error" then .halt (c.output, .error)
    else .stuck
  | [.word n, .word size] =>
    if name = "calloc" then
      .next (c.allocate id (List.replicate (n.toNat * size.toNat / 8) (.word 0)))
    else .stuck
  | _ => .stuck

/-- A function is called, with registers that hold `unset`. -/
def enter (m : Module) (unset : ℕ → Datum) (c : Process) (id k : ℕ) (args : List Datum) :
    Outcome Process (List Word × Stop) :=
  match m.functions[k]? with
  | none => .stuck
  | some f =>
    if f.blocks = [] then c.runtime id f.name args
    else if args.length = f.args.length then
      .next { c with
        top := ⟨k, 0, 0, 0, args, unset, []⟩
        callers := (id, { c.top with position := c.top.position + 1 }) :: c.callers }
    else .stuck

def call (m : Module) (serial : ℕ) (unset : ℕ → Datum) (c : Process) (id : ℕ) (args : List Datum) :
    Callee → Outcome Process (List Word × Stop)
  | .function r => if r.module = serial then c.enter m unset id r.index args else .stuck
  | .indirect pointer =>
    match c.operand pointer with
    | .code k => c.enter m unset id k args
    | _ => .stuck

/-- The function returns. -/
def ret (c : Process) (d : Datum) : Outcome Process (List Word × Stop) :=
  match c.callers with
  | [] => .halt (c.output, .returned d)
  | (id, caller) :: callers =>
    .next { c with
      top := { caller with registers := Function.update caller.registers id d }
      callers := callers
      memory := free c.memory c.top.slots }

/-- Executes an instruction with its number. -/
def execute (m : Module) (serial : ℕ) (unset : ℕ → Datum) (c : Process) (id : ℕ)
    (i : Instruction) : Outcome Process (List Word × Stop) :=
  match i with
  | .alloca type =>
    .next (allocate { c with top := { c.top with slots := c.memory.length :: c.top.slots } } id
      type.words)
  | .load p | .loadPointer p => c.load id (c.operand p)
  | .store v p => c.store id (c.operand v) (c.operand p)
  | .call callee args => c.call m serial unset id (args.map c.operand) callee
  | .br target => .next (c.goto id target)
  | .condBr cond thenTarget elseTarget =>
    match c.operand cond with
    | .word w => .next (c.goto id (if w ≠ 0 then thenTarget else elseTarget))
    | _ => .stuck
  | .ret v => c.ret (c.operand v)
  | .unreachable => .stuck
  | .binary op l r =>
    if Datum.overflows op (c.operand l) (c.operand r) then
      .halt (c.output, .undefined .divisionOverflow)
    else
      match c.compute (.binary op l r) with
      | some d => .next (c.finish id d)
      | none => .stuck
  | i =>
    match c.compute i with
    | some d => .next (c.finish id d)
    | none => .stuck

/-- The instruction that is executed next. -/
def current (m : Module) (c : Process) : Option (ℕ × Instruction) :=
  (blockAt (m.code c.top.function) c.top.block)[c.top.position]?

/-- One step. Direct calls are of functions of the module with that number, and a register of a new
activation holds what `unset` gives. -/
def step (m : Module) (serial : ℕ) (unset : ℕ → Datum) (c : Process) :
    Outcome Process (List Word × Stop) :=
  match c.current m with
  | some (id, i) => c.execute m serial unset id i
  | none => .stuck

/-- The program as `main` of the runtime library starts it, with the inputs. -/
def start (m : Module) (unset : ℕ → Datum) (args input : ℕ → Word) : Process where
  top := ⟨(m.find "_tip_main").getD 0, 0, 0, 0, [], unset, []⟩
  callers := []
  memory := [⟨m.dispatchTable.map fun r ↦ .code r.index, true⟩,
    ⟨(List.range m.numInputs).map fun i ↦ .word (args i), true⟩]
  input := input
  output := []

end Process

end Sipc.Llvm
