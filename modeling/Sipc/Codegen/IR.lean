import Mathlib.Data.List.Basic
import Mathlib.Data.BitVec
import Sipc.Library.Machine

/-!
# The instructions the code generator emits

The part of the intermediate language that `CodeGenFunctions.cpp` uses for ints, bools, local
variables and control flow, with its usual meaning: integers of 64 bits that wrap around, `icmp`
giving a value of one bit, stack cells made by `alloca` and reached through pointers, basic blocks
ended by a branch or a return, and `phi` choosing by the block the control came from. A division by
zero, an overflowing division, a read of a cell nothing was stored in and a value of the wrong kind
have no meaning: there the machine is stuck.

A basic block is named by a `Label`, in the order of creation, and the value of an instruction by a
`Register`. The call of `_tip_output` appends to the output, the call of the `donothing` intrinsic
does nothing, and an element of `_tip_input_array` is loaded by one instruction that stands for the
`getelementptr` and the `load`.
-/

set_option autoImplicit false
set_option relaxedAutoImplicit false

namespace Sipc

/-- `i64`. -/
abbrev Word := BitVec 64

namespace IR

/-- A basic block. -/
abbrev Label := ℕ

/-- The name of the value an instruction computes. -/
abbrev Register := ℕ

/-- `llvm::Value` as an operand: a constant, an argument of the function or an instruction. -/
inductive Operand
  | const (w : Word)
  | arg (i : ℕ)
  | instr (r : Register)
  deriving DecidableEq, Repr

inductive BinaryInstr
  | add | sub | mul | sdiv | srem | and | or | xor
  deriving DecidableEq, Repr

/-- The predicate of an `icmp`. -/
inductive Predicate
  | eq | ne | sgt | sge | slt | sle
  deriving DecidableEq, Repr

inductive Instruction
  | alloca (dst : Register)
  | load (dst : Register) (ptr : Operand)
  | store (val ptr : Operand)
  | loadInput (dst : Register) (idx : ℕ)
  | binary (dst : Register) (op : BinaryInstr) (left right : Operand)
  | icmp (dst : Register) (pred : Predicate) (left right : Operand)
  | zext (dst : Register) (val : Operand)
  | phi (dst : Register) (incoming : List (Operand × Label))
  | callOutput (arg : Operand)
  | callNop
  | br (target : Label)
  | condBr (cond : Operand) (thenTarget elseTarget : Label)
  | ret (val : Operand)
  deriving DecidableEq, Repr

/-- The body of a function: the instructions of every basic block. Control starts in block 0. -/
abbrev Blocks := Label → List Instruction

/-! ### Execution -/

/-- The value of a register. -/
inductive Value
  | i64 (w : Word)
  | i1 (b : Bool)
  | ptr (cell : ℕ)
  deriving DecidableEq, Repr

/-- What a function is called with: its arguments, and the global `_tip_input_array`. -/
structure Frame where
  args : List Word
  inputArray : List Word

/-- A running function: the block it is in, the instructions left there, the block it came from, the
registers, the stack cells and what was output. A cell holds nothing before the first store. -/
structure Config where
  block : Label
  rest : List Instruction
  prev : Label
  regs : Register → Option Value
  cells : List (Option Word)
  out : List Word

/-- The configuration a call starts in. -/
def Config.initial (F : Blocks) : Config where
  block := 0
  rest := F 0
  prev := 0
  regs := fun _ ↦ none
  cells := []
  out := []

def BinaryInstr.eval : BinaryInstr → Word → Word → Option Word
  | .add, l, r => some (l + r)
  | .sub, l, r => some (l - r)
  | .mul, l, r => some (l * r)
  | .sdiv, l, r => if r = 0 ∨ (l = BitVec.intMin 64 ∧ r = -1) then none else some (l.sdiv r)
  | .srem, l, r => if r = 0 ∨ (l = BitVec.intMin 64 ∧ r = -1) then none else some (l.srem r)
  | .and, l, r => some (l &&& r)
  | .or, l, r => some (l ||| r)
  | .xor, l, r => some (l ^^^ r)

def Predicate.eval : Predicate → Word → Word → Bool
  | .eq, l, r => l == r
  | .ne, l, r => l != r
  | .sgt, l, r => r.slt l
  | .sge, l, r => r.sle l
  | .slt, l, r => l.slt r
  | .sle, l, r => l.sle r

namespace Config

/-- The value of an operand. -/
def operand (φ : Frame) (c : Config) : Operand → Option Value
  | .const w => some (.i64 w)
  | .arg i => (φ.args[i]?).map .i64
  | .instr r => c.regs r

/-- The value of an operand that is an `i64`. -/
def word (φ : Frame) (c : Config) (v : Operand) : Option Word :=
  match c.operand φ v with
  | some (.i64 w) => some w
  | _ => none

/-- The cell an operand points to. -/
def cell (φ : Frame) (c : Config) (v : Operand) : Option ℕ :=
  match c.operand φ v with
  | some (.ptr a) => some a
  | _ => none

/-- The value of an operand that is an `i1`. -/
def bit (φ : Frame) (c : Config) (v : Operand) : Option Bool :=
  match c.operand φ v with
  | some (.i1 b) => some b
  | _ => none

/-- Sets a register. -/
def set (c : Config) (r : Register) (v : Value) : Config :=
  { c with regs := Function.update c.regs r (some v) }

/-- Goes on to the given instructions of the block. -/
def advance (c : Config) (rest : List Instruction) : Config :=
  { c with rest := rest }

/-- Goes to the start of a block. -/
def goto (F : Blocks) (c : Config) (l : Label) : Config :=
  { c with block := l, rest := F l, prev := c.block }

/-- One instruction, executed in a configuration whose `rest` is already past it. -/
def execute (F : Blocks) (φ : Frame) (c : Config) :
    Instruction → Option (Machine.Outcome Config (List Word × Word))
  | .alloca dst => some (.next { c.set dst (.ptr c.cells.length) with cells := c.cells ++ [none] })
  | .load dst ptr => do
    let a ← c.cell φ ptr
    let stored ← c.cells[a]?
    let w ← stored
    some (.next (c.set dst (.i64 w)))
  | .store val ptr => do
    let w ← c.word φ val
    let a ← c.cell φ ptr
    if a < c.cells.length then some (.next { c with cells := c.cells.set a (some w) }) else none
  | .loadInput dst idx => do
    let w ← φ.inputArray[idx]?
    some (.next (c.set dst (.i64 w)))
  | .binary dst op left right => do
    let l ← c.word φ left
    let r ← c.word φ right
    let w ← op.eval l r
    some (.next (c.set dst (.i64 w)))
  | .icmp dst pred left right => do
    let l ← c.word φ left
    let r ← c.word φ right
    some (.next (c.set dst (.i1 (pred.eval l r))))
  | .zext dst val => do
    let b ← c.bit φ val
    some (.next (c.set dst (.i64 (if b then 1 else 0))))
  | .phi dst incoming => do
    let v ← (incoming.find? fun p ↦ p.2 = c.prev).map Prod.fst
    let w ← c.word φ v
    some (.next (c.set dst (.i64 w)))
  | .callOutput arg => do
    let w ← c.word φ arg
    some (.next { c with out := c.out ++ [w] })
  | .callNop => some (.next c)
  | .br target => some (.next (c.goto F target))
  | .condBr cond thenTarget elseTarget => do
    let b ← c.bit φ cond
    some (.next (c.goto F (if b then thenTarget else elseTarget)))
  | .ret val => do
    let w ← c.word φ val
    some (.halt (c.out, w))

/-- One step of a function. -/
def step (F : Blocks) (φ : Frame) (c : Config) : Machine.Outcome Config (List Word × Word) :=
  match c.rest with
  | [] => .stuck
  | i :: rest => (execute F φ (c.advance rest) i).getD .stuck

section Lemmas

variable {φ : Frame} {c : Config} {v : Operand}

theorem word_of_operand {w : Word} (h : c.operand φ v = some (.i64 w)) : c.word φ v = some w := by
  rw [word, h]

theorem cell_of_operand {a : ℕ} (h : c.operand φ v = some (.ptr a)) : c.cell φ v = some a := by
  rw [cell, h]

theorem bit_of_operand {b : Bool} (h : c.operand φ v = some (.i1 b)) : c.bit φ v = some b := by
  rw [bit, h]

@[simp] theorem word_const (w : Word) : c.word φ (.const w) = some w := rfl

@[simp] theorem operand_advance (rest : List Instruction) :
    (c.advance rest).operand φ v = c.operand φ v := by
  cases v <;> rfl

@[simp] theorem word_advance (rest : List Instruction) :
    (c.advance rest).word φ v = c.word φ v := by
  simp only [word, operand_advance]

@[simp] theorem cell_advance (rest : List Instruction) :
    (c.advance rest).cell φ v = c.cell φ v := by
  simp only [cell, operand_advance]

@[simp] theorem bit_advance (rest : List Instruction) :
    (c.advance rest).bit φ v = c.bit φ v := by
  simp only [bit, operand_advance]

@[simp] theorem cells_advance (rest : List Instruction) : (c.advance rest).cells = c.cells := rfl

theorem step_of_rest {F : Blocks} {i : Instruction} {rest : List Instruction}
    (h : c.rest = i :: rest) : step F φ c = (execute F φ (c.advance rest) i).getD .stuck := by
  rw [step, h]

end Lemmas

end Config

/-- An instruction only adds to the output. -/
theorem prefix_out_of_execute {F : Blocks} {φ : Frame} {c : Config} {i : Instruction}
    {o : Machine.Outcome Config (List Word × Word)} (h : Config.execute F φ c i = some o) :
    o ≠ .stuck ∧ c.out <+: Machine.outputs Config.out o := by
  cases i <;>
    simp only [Config.execute, Option.bind_eq_bind, Option.bind_eq_some_iff, Option.some.injEq,
      Option.ite_none_right_eq_some] at h
  case alloca | callNop | br =>
    subst h
    exact ⟨by simp, List.prefix_rfl⟩
  case callOutput =>
    obtain ⟨w, -, rfl⟩ := h
    exact ⟨by simp, List.prefix_append _ _⟩
  case load =>
    obtain ⟨a, -, s, -, w, -, rfl⟩ := h
    exact ⟨by simp, List.prefix_rfl⟩
  case store =>
    obtain ⟨w, -, a, -, -, rfl⟩ := h
    exact ⟨by simp, List.prefix_rfl⟩
  case binary =>
    obtain ⟨l, -, r, -, w, -, rfl⟩ := h
    exact ⟨by simp, List.prefix_rfl⟩
  case icmp | phi =>
    obtain ⟨l, -, r, -, rfl⟩ := h
    exact ⟨by simp, List.prefix_rfl⟩
  case loadInput | zext | condBr | ret =>
    obtain ⟨b, -, rfl⟩ := h
    exact ⟨by simp, List.prefix_rfl⟩

/-- A step only adds to the output. -/
theorem observed_step (F : Blocks) (φ : Frame) :
    Machine.Observed (Config.step F φ) Config.out := by
  have key : ∀ {c : Config} {o : Machine.Outcome Config (List Word × Word)},
      Config.step F φ c = o → o ≠ .stuck → c.out <+: Machine.outputs Config.out o := by
    intro c o h hne
    unfold Config.step at h
    split at h
    · exact absurd h.symm hne
    · rename_i i rest hrest
      cases he : Config.execute F φ (c.advance rest) i with
      | none =>
        rw [he] at h
        exact absurd h.symm hne
      | some o' =>
        rw [he] at h
        subst h
        exact (prefix_out_of_execute he).2
  exact ⟨fun h ↦ key h (by simp), fun h ↦ key h (by simp)⟩

end IR

end Sipc
