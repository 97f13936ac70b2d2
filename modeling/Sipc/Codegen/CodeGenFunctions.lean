import Sipc.Frontend.AST
import Sipc.Codegen.IR

/-!
# The code generator

The `codegen` methods of `CodeGenFunctions.cpp` for the scalar core: literals, local variables and
parameters, operators, ternaries, assignments, updates, blocks, `if`, `while`, `output` and `return`.
The methods of the other nodes are not modelled, and a node of another kind fails here (`none`), as
an `InternalError` does.

The `IRBuilder` holds the insertion point, to which every instruction is appended. A method that
makes basic blocks moves it and does not move it back, so a caller that needs the block it is now in
asks for it (`getInsertBlock`). The builder's folding of constant operands, which leaves the values
as they are, and the names of values and blocks are left out.
-/

set_option autoImplicit false
set_option relaxedAutoImplicit false

namespace Sipc

open IR

/-- The `IRBuilder`, the blocks of the function being generated and the symbol table. -/
structure IRBuilder where
  blocks : Blocks
  nextLabel : ℕ
  nextRegister : ℕ
  insertBlock : ℕ
  /-- The allocas of the parameters and local variables. -/
  namedValues : String → Option Register
  /-- The indices of the program's functions in the dispatch table. -/
  functionIndex : String → Option ℕ

/-- A method that generates code. -/
abbrev Codegen := StateT IRBuilder Option

namespace IRBuilder

/-- The builder at the start of a function: an empty entry block, and an empty symbol table. -/
def entry (functionIndex : String → Option ℕ) : IRBuilder where
  blocks := fun _ ↦ []
  nextLabel := 1
  nextRegister := 0
  insertBlock := 0
  namedValues := fun _ ↦ none
  functionIndex := functionIndex

/-- Appends an instruction at the insertion point. -/
def insert (i : Instruction) : Codegen Unit :=
  modify fun b ↦ { b with
    blocks := Function.update b.blocks b.insertBlock (b.blocks b.insertBlock ++ [i]) }

/-- A new register. -/
def freshRegister : Codegen Register := do
  let b ← get
  set { b with nextRegister := b.nextRegister + 1 }
  return b.nextRegister

/-- Appends an instruction that computes a value. -/
def create (i : Register → Instruction) : Codegen Operand := do
  let r ← freshRegister
  insert (i r)
  return .instr r

/-- `BasicBlock::Create`. -/
def createBlock : Codegen Label := do
  let b ← get
  set { b with nextLabel := b.nextLabel + 1 }
  return b.nextLabel

/-- `SetInsertPoint`. -/
def setInsertPoint (l : Label) : Codegen Unit :=
  modify fun b ↦ { b with insertBlock := l }

/-- `GetInsertBlock`. -/
def getInsertBlock : Codegen Label := do
  return (← get).insertBlock

/-- `CreateEntryBlockAlloca`: an alloca in front of the entry block. -/
def createEntryBlockAlloca : Codegen Register := do
  let r ← freshRegister
  modify fun b ↦ { b with blocks := Function.update b.blocks 0 (.alloca r :: b.blocks 0) }
  return r

/-- Binds a name to its alloca. -/
def bindName (name : String) (alloca : Register) : Codegen Unit :=
  modify fun b ↦ { b with namedValues := Function.update b.namedValues name (some alloca) }

end IRBuilder

open IRBuilder

/-- The branches of `ASTBinaryExpr::codegen`: an arithmetic or logical instruction, or an `icmp`
whose bit is cast to an `i64`. -/
def BinaryOp.codegen (op : BinaryOp) (l r : Operand) : Codegen Operand :=
  let arith (i : BinaryInstr) : Codegen Operand := create fun dst ↦ .binary dst i l r
  let compare (p : Predicate) : Codegen Operand := do
    let cmp ← create fun dst ↦ .icmp dst p l r
    create fun dst ↦ .zext dst cmp
  match op with
  | .add => arith .add
  | .sub => arith .sub
  | .mul => arith .mul
  | .div => arith .sdiv
  | .gt => compare .sgt
  | .lt => compare .slt
  | .ge => compare .sge
  | .le => compare .sle
  | .eq => compare .eq
  | .ne => compare .ne
  | .and => arith .and
  | .or => arith .or
  | .mod => arith .srem

/-- `ASTExpr::codegen`. The flag `lValueGen` asks for the address of a variable. -/
def ASTExpr.codegen (lValueGen : Bool) : ASTExpr → Codegen Operand
  | .numberExpr _ val => return .const (val.toBitVec.signExtend 64)
  | .boolExpr _ val => return .const (if val then 1 else 0)
  | .variableExpr _ name => do
    let b ← get
    match b.namedValues name with
    | some alloca =>
      if lValueGen then return .instr alloca
      else create fun dst ↦ .load dst (.instr alloca)
    | none =>
      match b.functionIndex name with
      | some idx => return .const (BitVec.ofNat 64 idx)
      | none => failure
  | .binaryExpr _ op left right => do
    let l ← left.codegen lValueGen
    let r ← right.codegen lValueGen
    op.codegen l r
  | .notExpr _ arg => do
    let argVal ← arg.codegen lValueGen
    create fun dst ↦ .binary dst .xor argVal (.const 1)
  | .negExpr _ arg => do
    let argVal ← arg.codegen lValueGen
    create fun dst ↦ .binary dst .sub (.const 0) argVal
  | .ternaryExpr _ condition thenExpr elseExpr => do
    let condVal ← condition.codegen lValueGen
    let condV ← create fun dst ↦ .icmp dst .ne condVal (.const 0)
    let thenBB ← createBlock
    let elseBB ← createBlock
    let mergeBB ← createBlock
    insert (.condBr condV thenBB elseBB)
    setInsertPoint thenBB
    let thenV ← thenExpr.codegen lValueGen
    insert (.br mergeBB)
    let thenEnd ← getInsertBlock
    setInsertPoint elseBB
    let elseV ← elseExpr.codegen lValueGen
    insert (.br mergeBB)
    let elseEnd ← getInsertBlock
    setInsertPoint mergeBB
    create fun dst ↦ .phi dst [(thenV, thenEnd), (elseV, elseEnd)]
  | _ => failure

mutual

/-- `ASTStmt::codegen`. -/
def ASTStmt.codegen : ASTStmt → Codegen Unit
  | .assignStmt _ lhs rhs => do
    let lValue ← lhs.codegen true
    let rValue ← rhs.codegen false
    insert (.store rValue lValue)
  | .updateStmt _ arg increment => do
    let argVal ← arg.codegen true
    let argValLoaded ← create fun dst ↦ .load dst argVal
    let updatedVal ← create fun dst ↦
      .binary dst (if increment then .add else .sub) argValLoaded (.const 1)
    insert (.store updatedVal argVal)
  | .blockStmt _ [] => insert .callNop
  | .blockStmt _ (s :: stmts) => do
    s.codegen
    ASTStmt.codegenList stmts
  | .whileStmt _ condition body => do
    let headerBB ← createBlock
    let bodyBB ← createBlock
    let exitBB ← createBlock
    insert (.br headerBB)
    setInsertPoint headerBB
    let condVal ← condition.codegen false
    let condV ← create fun dst ↦ .icmp dst .ne condVal (.const 0)
    insert (.condBr condV bodyBB exitBB)
    setInsertPoint bodyBB
    body.codegen
    insert (.br headerBB)
    setInsertPoint exitBB
    insert .callNop
  | .ifStmt _ condition thenStmt elseStmt => do
    let condVal ← condition.codegen false
    let condV ← create fun dst ↦ .icmp dst .ne condVal (.const 0)
    let thenBB ← createBlock
    let elseBB ← createBlock
    let mergeBB ← createBlock
    insert (.condBr condV thenBB elseBB)
    setInsertPoint thenBB
    thenStmt.codegen
    insert (.br mergeBB)
    setInsertPoint elseBB
    ASTStmt.codegenElse elseStmt
    insert (.br mergeBB)
    setInsertPoint mergeBB
    insert .callNop
  | .outputStmt _ arg => do
    let argVal ← arg.codegen false
    insert (.callOutput argVal)
  | .forStmt _ _ _ _ | .errorStmt _ _ => failure

/-- The code of the `else` of an `if`. -/
def ASTStmt.codegenElse : Option ASTStmt → Codegen Unit
  | some s => s.codegen
  | none => insert .callNop

/-- `codegen` on each statement of a list, in order. -/
def ASTStmt.codegenList : List ASTStmt → Codegen Unit
  | [] => return ()
  | s :: stmts => do
    s.codegen
    ASTStmt.codegenList stmts

end

/-- An empty block generates what a missing `else` does. -/
example (n : NodeId) (lv : Bool) (b : IRBuilder) :
    (ASTStmt.blockStmt n []).codegen b = ASTStmt.codegenElse none b ∧
      ASTStmt.codegenList [] b = some ((), b) ∧ (ASTExpr.nullExpr n).codegen lv b = none := by
  rw [ASTStmt.codegen, ASTStmt.codegenElse, ASTStmt.codegenList, ASTExpr.codegen]
  · exact ⟨rfl, rfl, rfl⟩
  all_goals nofun

/-- The body of the loop in `ASTDeclStmt::codegen`. -/
def ASTDeclNode.codegenLocal (d : ASTDeclNode) : Codegen Unit := do
  let localAlloca ← createEntryBlockAlloca
  insert (.store (.const 0) (.instr localAlloca))
  bindName d.name localAlloca

/-- `ASTDeclStmt::codegen`. It gives no value for a statement without variables, which its caller
takes for a failure. -/
def ASTDeclStmt.codegen (s : ASTDeclStmt) : Codegen Unit :=
  match s.vars with
  | [] => failure
  | vars => vars.forM ASTDeclNode.codegenLocal

/-- The body of the loop over the arguments of a function other than `main`. -/
def ASTDeclNode.codegenArg (d : ASTDeclNode) (argIdx : ℕ) : Codegen Unit := do
  let argAlloc ← createEntryBlockAlloca
  insert (.store (.arg argIdx) (.instr argAlloc))
  bindName d.name argAlloc

/-- The body of the loop over the formals of `main`, whose values are in the input array. -/
def ASTDeclNode.codegenMainArg (d : ASTDeclNode) (argIdx : ℕ) : Codegen Unit := do
  let argAlloc ← createEntryBlockAlloca
  let inVal ← create fun dst ↦ .loadInput dst argIdx
  insert (.store inVal (.instr argAlloc))
  bindName d.name argAlloc

/-- `ASTReturnStmt::codegen`. -/
def ASTReturnStmt.codegen (s : ASTReturnStmt) : Codegen Unit := do
  let argVal ← s.arg.codegen false
  insert (.ret argVal)

/-- The declarations and statements of `ASTFunction::codegen`. -/
def ASTFunction.codegenBody (f : ASTFunction) : Codegen Unit := do
  f.formals.zipIdx.forM fun (d, i) ↦
    if f.name = "main" then d.codegenMainArg i else d.codegenArg i
  f.declarations.forM ASTDeclStmt.codegen
  ASTStmt.codegenList f.body
  f.ret.codegen

/-- `ASTFunction::codegen`. -/
def ASTFunction.codegen (f : ASTFunction) (functionIndex : String → Option ℕ) : Option Blocks :=
  (f.codegenBody.run (IRBuilder.entry functionIndex)).map fun p ↦ p.2.blocks

end Sipc
