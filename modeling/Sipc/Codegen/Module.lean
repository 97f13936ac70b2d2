import Mathlib.Data.List.Basic
import Sipc.Codegen.IR

/-!
# Modules

The module that `ASTProgram::codegen` fills, before it is executed or optimised: functions of basic
blocks, the dispatch table and the globals for the inputs. An `llvm::Value` knows its type, and where
it is an instruction also its opcode; `Kind` keeps as much of both as the code generator depends on.
`Function.create` and `Module.getFunction` are `llvm::Function::Create`, which renames a function
whose name is taken, and `llvm::Module::getFunction`.
-/

set_option autoImplicit false
set_option relaxedAutoImplicit false

namespace Sipc.Llvm

open IR (BinaryInstr Predicate Label)

/-- The type of a value, and for an address the instruction that computes it. -/
inductive Kind
  | void
  | int
  | bit
  /-- The address of an `alloca`. -/
  | slot
  /-- The address of a field of a record. -/
  | field
  /-- The address of an element of an array. -/
  | element
  /-- An address that an `inttoptr` makes of an integer. -/
  | converted
  /-- Any other pointer. -/
  | pointer
  deriving DecidableEq, Repr

/-- The value may be stored to and loaded from. -/
def Kind.IsPointer : Kind → Prop
  | .void | .int | .bit => False
  | _ => True

instance : DecidablePred Kind.IsPointer := fun k ↦ by
  cases k <;> unfold Kind.IsPointer <;> infer_instance

/-- `llvm::Function *`: the module it belongs to, its place there and what it returns. -/
structure FunctionRef where
  module : ℕ
  index : ℕ
  returns : Kind
  deriving DecidableEq, Repr

/-- `llvm::Value` as an operand. -/
inductive Operand
  | const (w : Word)
  | null
  | arg (i : ℕ)
  | result (id : ℕ) (kind : Kind)
  deriving DecidableEq, Repr

def Operand.kind : Operand → Kind
  | .const _ | .arg _ => .int
  | .null => .pointer
  | .result _ k => k

/-- What an `alloca` makes room for. -/
inductive AllocaType
  | int
  | pointer
  | record (fields : ℕ)
  deriving DecidableEq, Repr

inductive Callee
  | function (f : FunctionRef)
  | indirect (pointer : Operand)
  deriving DecidableEq, Repr

inductive Instruction
  | alloca (type : AllocaType)
  | load (ptr : Operand)
  | loadPointer (ptr : Operand)
  | store (val ptr : Operand)
  | binary (op : BinaryInstr) (left right : Operand)
  | icmp (pred : Predicate) (left right : Operand)
  | zext (val : Operand)
  | phi (incoming : List (Operand × Label))
  | intToPtr (val : Operand)
  | ptrToInt (ptr : Operand)
  /-- `getelementptr` over words. -/
  | elementPtr (base index : Operand)
  /-- `getelementptr` into the record structure. -/
  | fieldPtr (record : Operand) (index : ℕ)
  /-- `getelementptr` into `_tip_ftable`. -/
  | functionTablePtr (index : Operand)
  /-- `getelementptr` into `_tip_input_array`. -/
  | inputPtr (index : ℕ)
  | call (callee : Callee) (args : List Operand)
  | br (target : Label)
  | condBr (cond : Operand) (thenTarget elseTarget : Label)
  | ret (val : Operand)
  | unreachable
  deriving Repr

/-- The kind of the value that an instruction computes. -/
def Instruction.kind : Instruction → Kind
  | .alloca _ => .slot
  | .load _ | .zext _ | .ptrToInt _ | .call (.indirect _) _ => .int
  | .binary _ l _ => l.kind
  | .loadPointer _ | .functionTablePtr _ | .inputPtr _ => .pointer
  | .icmp _ _ _ => .bit
  | .phi [] => .void
  | .phi ((v, _) :: _) => v.kind
  | .intToPtr _ => .converted
  | .elementPtr _ _ => .element
  | .fieldPtr _ _ => .field
  | .call (.function f) _ => f.returns
  | .store _ _ | .br _ | .condBr _ _ _ | .ret _ | .unreachable => .void

/-- Every use of an address in the instruction is of a pointer. -/
def Instruction.WellFormed : Instruction → Prop
  | .load p | .loadPointer p | .store _ p | .ptrToInt p => p.kind.IsPointer
  | .elementPtr p _ | .fieldPtr p _ => p.kind.IsPointer
  | .call (.indirect p) _ => p.kind.IsPointer
  | _ => True

/-- A basic block: its instructions, numbered over the whole compilation. -/
abbrev Block := List (ℕ × Instruction)

/-- `llvm::Function`. Control starts in block 0. -/
structure Function where
  name : String
  args : List String
  returns : Kind
  blocks : List Block

/-- `llvm::Module`. -/
structure Module where
  functions : List Function
  /-- `_tip_ftable`. -/
  dispatchTable : List FunctionRef
  /-- `_tip_num_inputs`, and the length of `_tip_input_array`. -/
  numInputs : ℕ

namespace Module

def empty : Module :=
  ⟨[], [], 0⟩

/-- The place of the function with that name. -/
def find (m : Module) (name : String) : Option ℕ :=
  m.functions.findIdx? fun f ↦ f.name = name

/-- The name a new function gets: a number is added to a name that is taken. -/
def freshName (m : Module) (name : String) : String :=
  let taken := m.functions.map Function.name
  if name ∈ taken then
    let numbered := (List.range (taken.length + 1)).map fun k ↦ name ++ "." ++ toString (k + 1)
    (numbered.find? fun n ↦ n ∉ taken).getD name
  else name

/-- `llvm::Function::Create`. -/
def create (m : Module) (name : String) (args : List String) (returns : Kind) : Module :=
  { m with functions := m.functions ++ [⟨m.freshName name, args, returns, []⟩] }

/-- Adds an empty block to a function. -/
def addBlock (m : Module) (f : ℕ) : Module :=
  { m with functions := m.functions.modify f fun g ↦ { g with blocks := g.blocks ++ [[]] } }

/-- Changes a block of a function. -/
def modifyBlock (m : Module) (f : ℕ) (l : Label) (change : Block → Block) : Module :=
  { m with functions := m.functions.modify f fun g ↦ { g with blocks := g.blocks.modify l change } }

/-- The instructions of a module. -/
def instructions (m : Module) : List Instruction :=
  m.functions.flatMap fun f ↦ f.blocks.flatMap fun b ↦ b.map Prod.snd

end Module

end Sipc.Llvm
