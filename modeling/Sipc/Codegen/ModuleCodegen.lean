import Sipc.Codegen.Module
import Sipc.Frontend.AST
import Sipc.Library.Execution

/-!
# The code generator for whole programs

The `codegen` methods of `CodeGenFunctions.cpp` for every node, with the global variables of that
file as the state: the symbol tables, the flags `lValueGen` and `allocFlag`, the intrinsics created so
far and the current module. They are static, so a second program would be compiled in the state that
the first one leaves.

On the way a method leaves the events that statements about the generation speak of: the flags on
entry to an expression, and the value generated for an expression whose address is wanted. An
`InternalError` ends the generation. The names of values and blocks, and the folding of constants,
are left out. `CodeGenFunctions` has the scalar core on its own, with its meaning.
-/

set_option autoImplicit false
set_option relaxedAutoImplicit false

namespace Sipc.Llvm

open IR (BinaryInstr Predicate Label)
open Library

/-- The functions of the runtime library that are declared when they are first used. -/
inductive Intrinsic
  | input
  | output
  | error
  deriving DecidableEq, Repr

def Intrinsic.symbol : Intrinsic → String
  | .input => "_tip_input"
  | .output => "_tip_output"
  | .error => "_tip_error"

/-- What an `alloca` in the entry block holds: the value of a parameter, or a local variable. -/
inductive Origin
  | parameter (i : ℕ)
  | local (decl : NodeId)
  deriving DecidableEq, Repr

/-- `llvm::AllocaInst *`. The origin is kept for statements only. -/
structure Alloca where
  id : ℕ
  origin : Origin
  deriving DecidableEq, Repr

def Alloca.operand (a : Alloca) : Operand :=
  .result a.id .slot

/-- The global variables of the code generator. -/
structure CodegenState where
  functionIndex : String → Option ℕ
  functionFormalNames : String → List String
  /-- The allocas of the parameters and local variables of the function being generated. -/
  namedValues : String → Option Alloca
  fieldIndex : String → Option ℕ
  /-- The number of fields of `globalRecordType`. -/
  recordFields : ℕ
  lValueGen : Bool
  allocFlag : Bool
  numTIPArgs : ℕ
  nop : Option FunctionRef
  calloc : Option FunctionRef
  intrinsics : Intrinsic → Option FunctionRef
  /-- The number of `CurrentModule`, counting the modules made so far. -/
  serial : ℕ
  module : Module
  insertFunction : ℕ
  insertBlock : Label
  nextId : ℕ

/-- The state before anything was compiled. -/
def CodegenState.initial : CodegenState where
  functionIndex := fun _ ↦ none
  functionFormalNames := fun _ ↦ []
  namedValues := fun _ ↦ none
  fieldIndex := fun _ ↦ none
  recordFields := 0
  lValueGen := false
  allocFlag := false
  numTIPArgs := 0
  nop := none
  calloc := none
  intrinsics := fun _ ↦ none
  serial := 0
  module := Module.empty
  insertFunction := 0
  insertBlock := 0
  nextId := 0

/-- What happens during the generation of code. -/
inductive GenEvent
  | entered (e : ASTExpr) (lValueGen allocFlag : Bool)
  | addressed (e : ASTExpr) (v : Operand)

inductive InternalError
  | unknownVariable (name : String)
  | unknownField (field : String)
  | noDeclarations (stmt : NodeId)
  | noFunction
  deriving DecidableEq, Repr

/-- A method that generates code. -/
abbrev Generate := Run CodegenState GenEvent InternalError

namespace CodegenState

/-- The state after an instruction is appended at the insertion point. -/
def insert (s : CodegenState) (i : Instruction) : CodegenState :=
  { s with
    module := s.module.modifyBlock s.insertFunction s.insertBlock fun b ↦ b ++ [(s.nextId, i)]
    nextId := s.nextId + 1 }

/-- The state after an `alloca` is put in front of the entry block. -/
def insertEntryAlloca (s : CodegenState) : CodegenState :=
  { s with
    module := s.module.modifyBlock s.insertFunction 0 fun b ↦ (s.nextId, .alloca .int) :: b
    nextId := s.nextId + 1 }

/-- The state after a function is created in the current module. -/
def create (s : CodegenState) (name : String) (args : List String) (returns : Kind) :
    CodegenState :=
  { s with module := s.module.create name args returns }

end CodegenState

/-! ### The builder -/

def get : Generate CodegenState :=
  Run.access fun s ↦ (s, s)

def modify (f : CodegenState → CodegenState) : Generate Unit :=
  Run.access fun s ↦ ((), f s)

/-- Appends an instruction. -/
def emit (i : Instruction) : Generate Operand :=
  Run.access fun s ↦ (.result s.nextId i.kind, s.insert i)

/-- Appends an instruction whose value is not used. -/
def emitUnit (i : Instruction) : Generate Unit :=
  modify fun s ↦ s.insert i

/-- `BasicBlock::Create`, in the function of the insertion point. -/
def createBlock : Generate Label :=
  Run.access fun s ↦
    ((s.module.functions[s.insertFunction]?.map fun f ↦ f.blocks.length).getD 0,
      { s with module := s.module.addBlock s.insertFunction })

def setInsertPoint (l : Label) : Generate Unit :=
  modify fun s ↦ { s with insertBlock := l }

def getInsertBlock : Generate Label :=
  Run.access fun s ↦ (s.insertBlock, s)

/-- `CreateEntryBlockAlloca`. -/
def createEntryBlockAlloca (origin : Origin) : Generate Alloca :=
  Run.access fun s ↦ (⟨s.nextId, origin⟩, s.insertEntryAlloca)

/-- `llvm::Function::Create`, in the current module. -/
def createFunction (name : String) (args : List String) (returns : Kind) : Generate FunctionRef :=
  Run.access fun s ↦ (⟨s.serial, s.module.functions.length, returns⟩, s.create name args returns)

/-- Declares a function of the runtime library, unless a pointer to it is there. -/
def intrinsic (i : Intrinsic) : Generate FunctionRef := do
  match (← get).intrinsics i with
  | some f => return f
  | none =>
    let f ← createFunction i.symbol [] .int
    modify fun s ↦ { s with intrinsics := Function.update s.intrinsics i (some f) }
    return f

def callNop : Generate Unit := do
  let nop ← Run.orFail .noFunction (← get).nop
  emitUnit (.call (.function nop) [])

/-- A call of `calloc`. -/
def callCalloc (items size : Operand) : Generate Operand := do
  let calloc ← Run.orFail .noFunction (← get).calloc
  emit (.call (.function calloc) [items, size])

/-- A comparison of a condition with 0, and the branch it decides. -/
def branchOn (condVal : Operand) (thenTarget elseTarget : Label) : Generate Unit := do
  let condV ← emit (.icmp .ne condVal (.const 0))
  emitUnit (.condBr condV thenTarget elseTarget)

/-- `fieldIndex[field]`, which makes a missing entry with value 0. -/
def fieldSlot (field : String) : Generate ℕ :=
  Run.access fun s ↦
    match s.fieldIndex field with
    | some i => (i, s)
    | none => (0, { s with fieldIndex := Function.update s.fieldIndex field (some 0) })

/-- Generates code for an expression, whose own code is `code`, with `lValueGen` set. -/
def address (e : ASTExpr) (code : Generate Operand) : Generate Operand := do
  modify fun s ↦ { s with lValueGen := true }
  let lValue ← code
  modify fun s ↦ { s with lValueGen := false }
  Run.emit (.addressed e lValue)
  return lValue

/-- The flag `lValueGen`, which is reset for the sub-expressions. -/
def takeLValue : Generate Bool := do
  let isLValue := (← get).lValueGen
  modify fun s ↦ { s with lValueGen := false }
  return isLValue

end Sipc.Llvm

namespace Sipc

open Llvm Library

/-! ### Expressions -/

/-- The branches of `ASTBinaryExpr::codegen`. -/
def BinaryOp.generate (op : BinaryOp) (l r : Operand) : Generate Operand :=
  let compare (p : IR.Predicate) : Generate Operand := do
    let cmp ← emit (.icmp p l r)
    emit (.zext cmp)
  match op with
  | .add => emit (.binary .add l r)
  | .sub => emit (.binary .sub l r)
  | .mul => emit (.binary .mul l r)
  | .div => emit (.binary .sdiv l r)
  | .gt => compare .sgt
  | .lt => compare .slt
  | .ge => compare .sge
  | .le => compare .sle
  | .eq => compare .eq
  | .ne => compare .ne
  | .and => emit (.binary .and l r)
  | .or => emit (.binary .or l r)
  | .mod => emit (.binary .srem l r)

/-- `ASTVariableExpr::codegen`. -/
def generateVariable (name : String) : Generate Operand := do
  let s ← get
  match s.namedValues name with
  | some alloca =>
    if s.lValueGen then return alloca.operand else emit (.load alloca.operand)
  | none =>
    match s.functionIndex name with
    | some idx => return .const (BitVec.ofNat 64 idx)
    | none => Run.fail (.unknownVariable name)

/-- The bounds check of `ASTIndexingExpr::codegen`, and the address of the element. -/
def generateElement (isLValue : Bool) (arrayPtr length indexVal : Operand) : Generate Operand := do
  let isIndexNegative ← emit (.icmp .slt indexVal (.const 0))
  let isIndexTooLarge ← emit (.icmp .sge indexVal length)
  let isOutOfBounds ← emit (.binary .or isIndexNegative isIndexTooLarge)
  let inBounds ← createBlock
  let outOfBounds ← createBlock
  let continue' ← createBlock
  emitUnit (.condBr isOutOfBounds outOfBounds inBounds)
  setInsertPoint outOfBounds
  let error ← intrinsic .error
  emitUnit (.call (.function error) [.const 0])
  emitUnit .unreachable
  setInsertPoint inBounds
  let adjustedIndex ← emit (.binary .add indexVal (.const 1))
  let elementPtr ← emit (.elementPtr arrayPtr adjustedIndex)
  emitUnit (.br continue')
  setInsertPoint continue'
  if isLValue then emit (.phi [(elementPtr, inBounds)])
  else emit (.load elementPtr)

mutual

/-- `ASTExpr::codegen`. -/
def ASTExpr.generate (e : ASTExpr) : Generate Operand := do
  let s ← get
  Run.emit (.entered e s.lValueGen s.allocFlag)
  match e with
  | .numberExpr _ val => return .const (val.toBitVec.signExtend 64)
  | .boolExpr _ val => return .const (if val then 1 else 0)
  | .inputExpr _ =>
    let input ← intrinsic .input
    emit (.call (.function input) [])
  | .nullExpr _ => emit (.ptrToInt .null)
  | .variableExpr _ name => generateVariable name
  | .binaryExpr _ op left right =>
    let l ← left.generate
    let r ← right.generate
    op.generate l r
  | .notExpr _ arg =>
    let argVal ← arg.generate
    emit (.binary .xor argVal (.const 1))
  | .negExpr _ arg =>
    let argVal ← arg.generate
    emit (.binary .sub (.const 0) argVal)
  | .funAppExpr _ function actuals =>
    let funVal ← function.generate
    let gep ← emit (.functionTablePtr funVal)
    let functionPointer ← emit (.loadPointer gep)
    let argsV ← ASTExpr.generateList actuals
    emit (.call (.indirect functionPointer) argsV)
  | .allocExpr _ initializer =>
    modify fun s ↦ { s with allocFlag := true }
    let argVal ← initializer.generate
    modify fun s ↦ { s with allocFlag := false }
    let allocInst ← callCalloc (.const 1) (.const 8)
    emitUnit (.store argVal allocInst)
    emit (.ptrToInt allocInst)
  | .refExpr _ var =>
    let lValue ← address var var.generate
    emit (.ptrToInt lValue)
  | .deRefExpr _ ptr =>
    let isLValue ← takeLValue
    let argVal ← ptr.generate
    let address ← emit (.intToPtr argVal)
    if isLValue then return address else emit (.load address)
  | .recordExpr _ fields =>
    let s ← get
    if s.allocFlag then
      let allocaRecord ← emit (.alloca .pointer)
      let recordPtr ← callCalloc (.const 1) (.const (BitVec.ofNat 64 (8 * s.recordFields)))
      emitUnit (.store recordPtr allocaRecord)
      let loadInst ← emit (.loadPointer allocaRecord)
      ASTExpr.generateFields loadInst fields
      emit (.ptrToInt recordPtr)
    else
      let allocaRecord ← emit (.alloca (.record s.recordFields))
      ASTExpr.generateFields allocaRecord fields
      emit (.ptrToInt allocaRecord)
  | .accessExpr _ record field =>
    let isLValue ← takeLValue
    let index ← Run.orFail (.unknownField field) ((← get).fieldIndex field)
    let recordVal ← record.generate
    let recordAddress ← emit (.intToPtr recordVal)
    let gep ← emit (.fieldPtr recordAddress index)
    if isLValue then return gep else emit (.load gep)
  | .ternaryExpr _ condition thenExpr elseExpr =>
    let condVal ← condition.generate
    let thenBB ← createBlock
    let elseBB ← createBlock
    let mergeBB ← createBlock
    branchOn condVal thenBB elseBB
    setInsertPoint thenBB
    let thenV ← thenExpr.generate
    emitUnit (.br mergeBB)
    let thenEnd ← getInsertBlock
    setInsertPoint elseBB
    let elseV ← elseExpr.generate
    emitUnit (.br mergeBB)
    let elseEnd ← getInsertBlock
    setInsertPoint mergeBB
    emit (.phi [(thenV, thenEnd), (elseV, elseEnd)])
  | .arrayExpr _ elements =>
    let numElements := BitVec.ofNat 64 elements.length
    let int64Ptr ← callCalloc (.const (1 + numElements)) (.const 8)
    emitUnit (.store (.const numElements) int64Ptr)
    ASTExpr.generateElements int64Ptr 0 elements
    emit (.ptrToInt int64Ptr)
  | .arrayOfExpr _ e1 e2 =>
    let sizeValue ← e1.generate
    let numItems ← emit (.binary .add sizeValue (.const 1))
    let int64Ptr ← callCalloc numItems (.const 8)
    emitUnit (.store sizeValue int64Ptr)
    let indexPtr ← emit (.alloca .int)
    emitUnit (.store (.const 1) indexPtr)
    let loopCondBB ← createBlock
    let loopBodyBB ← createBlock
    let loopEndBB ← createBlock
    emitUnit (.br loopCondBB)
    setInsertPoint loopCondBB
    let currentIndex ← emit (.load indexPtr)
    let loopCond ← emit (.icmp .sle currentIndex sizeValue)
    emitUnit (.condBr loopCond loopBodyBB loopEndBB)
    setInsertPoint loopBodyBB
    let elementValue ← e2.generate
    let elementPtr ← emit (.elementPtr int64Ptr currentIndex)
    emitUnit (.store elementValue elementPtr)
    let nextIndex ← emit (.binary .add currentIndex (.const 1))
    emitUnit (.store nextIndex indexPtr)
    emitUnit (.br loopCondBB)
    setInsertPoint loopEndBB
    emit (.ptrToInt int64Ptr)
  | .indexingExpr _ arr idx =>
    let isLValue ← takeLValue
    let arrayVal ← arr.generate
    let arrayPtr ← emit (.intToPtr arrayVal)
    let length ← emit (.load arrayPtr)
    let indexVal ← idx.generate
    modify fun s ↦ { s with lValueGen := isLValue }
    generateElement isLValue arrayPtr length indexVal
  | .arrayLenExpr _ ptr =>
    let arrayVal ← ptr.generate
    let arrayPtr ← emit (.intToPtr arrayVal)
    emit (.load arrayPtr)

/-- The loop over the actuals of an application. -/
def ASTExpr.generateList : List ASTExpr → Generate (List Operand)
  | [] => return []
  | e :: es => do
    let v ← e.generate
    let vs ← ASTExpr.generateList es
    return v :: vs

/-- The loop over the elements of an array literal. -/
def ASTExpr.generateElements (int64Ptr : Operand) : ℕ → List ASTExpr → Generate Unit
  | _, [] => return ()
  | i, e :: es => do
    let elementValue ← e.generate
    let elementPtr ← emit (.elementPtr int64Ptr (.const (BitVec.ofNat 64 (i + 1))))
    emitUnit (.store elementValue elementPtr)
    ASTExpr.generateElements int64Ptr (i + 1) es

/-- The loop over the fields of a record literal. -/
def ASTExpr.generateFields (record : Operand) : List ASTFieldExpr → Generate Unit
  | [] => return ()
  | .mk _ field initializer :: fs => do
    let index ← fieldSlot field
    let gep ← emit (.fieldPtr record index)
    let value ← initializer.generate
    emitUnit (.store value gep)
    ASTExpr.generateFields record fs

end

/-! ### Statements -/

/-- The range of a `for`: start, end and increment. -/
def generateRange (rangeStart rangeEnd : ASTExpr) (increment : Option ASTExpr) :
    Generate (Operand × Operand × Operand) := do
  let startV ← rangeStart.generate
  let endV ← rangeEnd.generate
  match increment with
  | none => return (startV, endV, .const 1)
  | some e =>
    let incrementV ← e.generate
    return (startV, endV, incrementV)

mutual

/-- `ASTStmt::codegen`. -/
def ASTStmt.generate : ASTStmt → Generate Unit
  | .assignStmt _ lhs rhs => do
    let lValue ← address lhs lhs.generate
    let rValue ← rhs.generate
    emitUnit (.store rValue lValue)
  | .updateStmt _ arg increment => do
    let argVal ← address arg arg.generate
    let argValLoaded ← emit (.load argVal)
    let updatedVal ← emit (.binary (if increment then .add else .sub) argValLoaded (.const 1))
    emitUnit (.store updatedVal argVal)
  | .blockStmt _ [] => callNop
  | .blockStmt _ (s :: stmts) => do
    s.generate
    ASTStmt.generateList stmts
  | .whileStmt _ condition body => do
    let headerBB ← createBlock
    let bodyBB ← createBlock
    let exitBB ← createBlock
    emitUnit (.br headerBB)
    setInsertPoint headerBB
    let condVal ← condition.generate
    branchOn condVal bodyBB exitBB
    setInsertPoint bodyBB
    body.generate
    emitUnit (.br headerBB)
    setInsertPoint exitBB
    callNop
  | .forStmt _ item (.range rangeStart rangeEnd increment) body => do
    let headerBB ← createBlock
    let bodyBB ← createBlock
    let exitBB ← createBlock
    let itemV ← address item item.generate
    let (startV, endV, incrementV) ← generateRange rangeStart rangeEnd increment
    emitUnit (.store startV itemV)
    emitUnit (.br headerBB)
    setInsertPoint headerBB
    let itemVal ← emit (.load itemV)
    let condV ← emit (.icmp .slt itemVal endV)
    emitUnit (.condBr condV bodyBB exitBB)
    setInsertPoint bodyBB
    body.generate
    let currentItemV ← emit (.load itemV)
    let nextItemV ← emit (.binary .add currentItemV incrementV)
    emitUnit (.store nextItemV itemV)
    emitUnit (.br headerBB)
    setInsertPoint exitBB
    callNop
  | .forStmt _ item (.iterator iterator) body => do
    let headerBB ← createBlock
    let bodyBB ← createBlock
    let exitBB ← createBlock
    let itemV ← address item item.generate
    let iteratorV ← iterator.generate
    let indexV ← emit (.alloca .int)
    emitUnit (.store (.const 1) indexV)
    let arrayPtr ← emit (.intToPtr iteratorV)
    let length ← emit (.load arrayPtr)
    emitUnit (.br headerBB)
    setInsertPoint headerBB
    let curIndex ← emit (.load indexV)
    let condV ← emit (.icmp .sle curIndex length)
    emitUnit (.condBr condV bodyBB exitBB)
    setInsertPoint bodyBB
    let currentIndexV ← emit (.load indexV)
    let elementPtr ← emit (.elementPtr arrayPtr currentIndexV)
    let elementValue ← emit (.load elementPtr)
    emitUnit (.store elementValue itemV)
    body.generate
    let nextIndexV ← emit (.binary .add currentIndexV (.const 1))
    emitUnit (.store nextIndexV indexV)
    emitUnit (.br headerBB)
    setInsertPoint exitBB
    callNop
  | .ifStmt _ condition thenStmt elseStmt => do
    let condVal ← condition.generate
    let thenBB ← createBlock
    let elseBB ← createBlock
    let mergeBB ← createBlock
    branchOn condVal thenBB elseBB
    setInsertPoint thenBB
    thenStmt.generate
    emitUnit (.br mergeBB)
    setInsertPoint elseBB
    ASTStmt.generateElse elseStmt
    emitUnit (.br mergeBB)
    setInsertPoint mergeBB
    callNop
  | .outputStmt _ arg => do
    let output ← intrinsic .output
    let argVal ← arg.generate
    emitUnit (.call (.function output) [argVal])
  | .errorStmt _ arg => do
    let error ← intrinsic .error
    let argVal ← arg.generate
    emitUnit (.call (.function error) [argVal])

/-- The code of the `else` of an `if`. -/
def ASTStmt.generateElse : Option ASTStmt → Generate Unit
  | some s => s.generate
  | none => callNop

/-- `codegen` on each statement of a list, in order. -/
def ASTStmt.generateList : List ASTStmt → Generate Unit
  | [] => return ()
  | s :: stmts => do
    s.generate
    ASTStmt.generateList stmts

end

/-! ### Functions and programs -/

/-- Binds a name to its alloca. -/
def bindName (name : String) (alloca : Alloca) : Generate Unit :=
  modify fun s ↦ { s with namedValues := Function.update s.namedValues name (some alloca) }

/-- The body of the loop in `ASTDeclStmt::codegen`. -/
def ASTDeclNode.generateLocal (d : ASTDeclNode) : Generate Unit := do
  let localAlloca ← createEntryBlockAlloca (.local d.node)
  emitUnit (.store (.const 0) localAlloca.operand)
  bindName d.name localAlloca

/-- `ASTDeclStmt::codegen`, whose caller takes a statement without variables for a failure. -/
def ASTDeclStmt.generate (s : ASTDeclStmt) : Generate Unit := do
  s.vars.forM ASTDeclNode.generateLocal
  if s.vars.isEmpty then Run.fail (.noDeclarations s.node)

/-- The body of the loop over the formals of `main`, whose values are in the input array. -/
def generateMainArg (argName : String) (argIdx : ℕ) : Generate Unit := do
  let argAlloc ← createEntryBlockAlloca (.parameter argIdx)
  let gep ← emit (.inputPtr argIdx)
  let inVal ← emit (.load gep)
  emitUnit (.store inVal argAlloc.operand)
  bindName argName argAlloc

/-- The body of the loop over the arguments of an LLVM function. -/
def generateArg (argName : String) (argIdx : ℕ) : Generate Unit := do
  let argAlloc ← createEntryBlockAlloca (.parameter argIdx)
  emitUnit (.store (.arg argIdx) argAlloc.operand)
  bindName argName argAlloc

/-- `getFunction`: the LLVM function of a function of the program, created when it is not there. -/
def getFunction (functionName : String) : Generate FunctionRef := do
  let s ← get
  let formalNames := s.functionFormalNames functionName
  if functionName = "main" then
    match s.module.find "_tip_main" with
    | some i => return ⟨s.serial, i, .int⟩
    | none =>
      modify fun s ↦ { s with numTIPArgs := formalNames.length }
      createFunction "_tip_main" [] .int
  else
    match s.module.find functionName with
    | some i => return ⟨s.serial, i, .int⟩
    | none => createFunction functionName formalNames .int

/-- The names of the parameters, which are the formals of the AST for `main` and the arguments of the
LLVM function for any other function. -/
def parameterNames (f : ASTFunction) (theFunction : FunctionRef) : Generate (List String) := do
  let s ← get
  if f.name = "main" then return s.functionFormalNames f.name
  else return (s.module.functions[theFunction.index]?.map Llvm.Function.args).getD []

/-- The part of `ASTFunction::codegen` before the statements. -/
def ASTFunction.generatePrologue (f : ASTFunction) : Generate Unit := do
  let theFunction ← getFunction f.name
  modify fun s ↦ { s with insertFunction := theFunction.index }
  let entry ← createBlock
  setInsertPoint entry
  modify fun s ↦ { s with namedValues := fun _ ↦ none }
  let names ← parameterNames f theFunction
  names.zipIdx.forM fun (name, i) ↦
    if f.name = "main" then generateMainArg name i else generateArg name i
  f.declarations.forM ASTDeclStmt.generate

/-- `ASTFunction::codegen`. -/
def ASTFunction.generate (f : ASTFunction) : Generate Unit := do
  f.generatePrologue
  ASTStmt.generateList f.body
  let argVal ← f.ret.arg.generate
  emitUnit (.ret argVal)

/-- The functions of the program are numbered, and their formals recorded. -/
def Llvm.CodegenState.addFunctions (s : CodegenState) (fs : List ASTFunction) : CodegenState :=
  fs.zipIdx.foldl
    (fun s (f, funIndex) ↦
      { s with
        functionIndex := Function.update s.functionIndex f.name (some funIndex)
        functionFormalNames :=
          Function.update s.functionFormalNames f.name (f.formals.map ASTDeclNode.name) }) s

/-- The fields are numbered. -/
def Llvm.CodegenState.addFields (s : CodegenState) (fields : List String) : CodegenState :=
  { fields.zipIdx.foldl
      (fun s (field, index) ↦
        { s with fieldIndex := Function.update s.fieldIndex field (some index) }) s with
    recordFields := fields.length }

/-- The `_tip_main` of a program without a function `main`. -/
def generateUndefinedMain : Generate Unit := do
  let main ← createFunction "_tip_main" [] .int
  modify fun s ↦ { s with insertFunction := main.index }
  let entry ← createBlock
  setInsertPoint entry
  let undef ← createFunction "_tip_main_undefined" [] .void
  emitUnit (.call (.function undef) [])
  emitUnit (.ret (.const 0))

/-- Every program gets a `_tip_main`. -/
def ensureMain : Generate Unit := do
  let s ← get
  if (s.functionIndex "main").isNone then generateUndefinedMain

/-- The part of `ASTProgram::codegen` before the functions: the symbol tables, the declarations of the
functions and the globals. -/
def ASTProgram.declareFunctions (p : ASTProgram) (fields : List String) : Generate Unit := do
  modify fun s ↦ { s with serial := s.serial + 1, module := Module.empty }
  let nop ← createFunction "llvm.donothing" [] .void
  modify fun s ↦ { s with nop := some nop }
  modify fun s ↦ s.addFunctions p.functions
  let programFunctions ← p.functions.mapM fun f ↦ getFunction f.name
  modify fun s ↦ { s with module := { s.module with dispatchTable := programFunctions } }
  ensureMain
  modify fun s ↦ { s with module := { s.module with numInputs := s.numTIPArgs } }
  let calloc ← createFunction "calloc" [] .pointer
  modify fun s ↦ { s with calloc := some calloc }
  modify fun s ↦ s.addFields fields

/-- `ASTProgram::codegen`. The fields are those of the symbol table. -/
def ASTProgram.codegen (p : ASTProgram) (fields : List String) : Generate Module := do
  p.declareFunctions fields
  p.functions.forM ASTFunction.generate
  return (← get).module

end Sipc
