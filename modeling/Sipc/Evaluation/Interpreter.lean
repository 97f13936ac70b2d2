import Sipc.Codegen.IR
import Sipc.Frontend.AST
import Sipc.Library.Execution

/-!
# A semantics with tagged values

The program as the source language means it, on values that carry their kind. Memory is a list of
cells that is only ever added to, so pointers never dangle; a variable is a cell, and so is the name
of a function, which starts out holding the function. Sub-expressions are evaluated in the order of
the generated code.

An operator applied to a value of the wrong kind ends the run with `wrongKind`. The other failures
are those that a well-typed program may run into. Evaluation is given a number of levels, one for
each construct entered (`evaluators`), and runs out of time when they are used up. On the way it
leaves the events that statements about runs speak of.
-/

set_option autoImplicit false
set_option relaxedAutoImplicit false

namespace Sipc

open Library

/-! ### Values and memory -/

/-- Arrays and records are the address of their header, a cell of its own before their elements. A
record gives the cell of each of its fields. -/
inductive Value
  | int (w : Word)
  | bool (b : Bool)
  | function (decl : NodeId)
  | null
  | pointer (cell : ℕ)
  | array (base : ℕ) (length : Word)
  | record (base : ℕ) (fields : List (String × ℕ))
  deriving DecidableEq, Repr

/-- A cell of memory. The cell of a variable is owned by its declaration. A cell without content has
never been assigned. -/
structure Cell where
  owner : Option NodeId
  content : Option Value

/-- The cells, and the numbers that `input` will read. -/
structure Memory where
  cells : List Cell
  input : ℕ → Word

/-- What ends a run early. -/
inductive Failure
  | wrongKind
  | nullDereference
  | arrayBounds
  | divisionByZero
  | unassigned
  | error
  deriving DecidableEq, Repr

/-- What happens during a run. -/
inductive Event
  | evaluated (e : ASTExpr) (v : Value)
  | assigned (lhs : ASTExpr) (owner : Option NodeId) (v : Value)
  | iterated (item : ASTExpr) (owner : Option NodeId) (v : Value)
  | called (app caller callee : NodeId)
  | returned (callee : NodeId) (v : Value)
  | output (w : Word)

abbrev Eval := Run Memory Event Failure

namespace Memory

/-- Adds cells at the end of memory, and gives the address of the first. -/
def allocate (new : List Cell) : Eval ℕ :=
  Run.access fun m ↦ (m.cells.length, { m with cells := m.cells ++ new })

def cell (a : ℕ) : Eval (Option Cell) :=
  Run.access fun m ↦ (m.cells[a]?, m)

/-- The value in a cell. -/
def load (a : ℕ) : Eval Value := do
  let c ← cell a
  Run.orFail .unassigned (c.bind Cell.content)

/-- The variable whose cell it is. -/
def owner (a : ℕ) : Eval (Option NodeId) := do
  let c ← cell a
  return c.bind Cell.owner

def store (a : ℕ) (v : Value) : Eval Unit :=
  Run.access fun m ↦ ((), { m with cells := m.cells.modify a fun c ↦ { c with content := some v } })

/-- The next number of the input. -/
def read : Eval Word :=
  Run.access fun m ↦ (m.input 0, { m with input := fun i ↦ m.input (i + 1) })

end Memory

/-! ### Operators -/

namespace Value

def int? : Value → Option Word
  | .int w => some w
  | _ => none

def bool? : Value → Option Bool
  | .bool b => some b
  | _ => none

def function? : Value → Option NodeId
  | .function decl => some decl
  | _ => none

def array? : Value → Option (ℕ × Word)
  | .array base length => some (base, length)
  | _ => none

def record? : Value → Option (List (String × ℕ))
  | .record _ fields => some fields
  | _ => none

/-- The cell a pointer points to. -/
def dereference : Value → Eval ℕ
  | .pointer a => pure a
  | .null => Run.fail .nullDereference
  | _ => Run.fail .wrongKind

end Value

/-- The value of the kind an operator expects. -/
def expect {α : Type} (kind : Value → Option α) (v : Value) : Eval α :=
  Run.orFail .wrongKind (kind v)

/-- The operators on two ints. -/
def BinaryOp.applyInts : BinaryOp → Word → Word → Eval Value
  | .add, l, r => pure (.int (l + r))
  | .sub, l, r => pure (.int (l - r))
  | .mul, l, r => pure (.int (l * r))
  | .div, l, r => if r = 0 then Run.fail .divisionByZero else pure (.int (l.sdiv r))
  | .mod, l, r => if r = 0 then Run.fail .divisionByZero else pure (.int (l.srem r))
  | .gt, l, r => pure (.bool (decide (l.toInt > r.toInt)))
  | .ge, l, r => pure (.bool (decide (l.toInt ≥ r.toInt)))
  | .lt, l, r => pure (.bool (decide (l.toInt < r.toInt)))
  | .le, l, r => pure (.bool (decide (l.toInt ≤ r.toInt)))
  | .eq, _, _ | .ne, _, _ | .and, _, _ | .or, _, _ => Run.fail .wrongKind

/-- Equality compares any two values; `and` and `or` evaluate both operands. -/
def BinaryOp.apply : BinaryOp → Value → Value → Eval Value
  | .eq, l, r => pure (.bool (decide (l = r)))
  | .ne, l, r => pure (.bool (decide (l ≠ r)))
  | .and, l, r => do
    let x ← expect Value.bool? l
    let y ← expect Value.bool? r
    return .bool (x && y)
  | .or, l, r => do
    let x ← expect Value.bool? l
    let y ← expect Value.bool? r
    return .bool (x || y)
  | op, l, r => do
    let x ← expect Value.int? l
    let y ← expect Value.int? r
    op.applyInts x y

/-! ### One level of evaluation -/

/-- The function being run, and the cells of the names it sees. -/
structure Scope where
  function : NodeId
  names : List (String × ℕ)

/-- Evaluation of what lies below the current construct. -/
structure Evaluators where
  expr : Scope → ASTExpr → Eval Value
  stmt : Scope → ASTStmt → Eval Unit
  range : Scope → ℕ → Word → Word → ASTStmt → Eval Unit

/-- The names of the functions, each with its cell. -/
def ASTProgram.globals (p : ASTProgram) : List (String × ℕ) :=
  (p.functions.map ASTFunction.name).zipIdx

/-- The cells of a call: the formals hold the actuals, and the local variables nothing. -/
def ASTFunction.frame (f : ASTFunction) (actuals : List Value) : List Cell :=
  List.zipWith (fun d v ↦ ⟨some d.node, some v⟩) f.formals actuals ++
    (f.declarations.flatMap ASTDeclStmt.vars).map fun d ↦ ⟨some d.node, none⟩

section Level

variable (p : ASTProgram) (ev : Evaluators)

/-- The array of the given values, whose header holds `length`. -/
def newArray (length : Word) (vs : List Value) : Eval Value := do
  let base ← Memory.allocate (⟨none, none⟩ :: vs.map fun v ↦ ⟨none, some v⟩)
  return .array base length

/-- The record with the given fields. Where a name is repeated, the last one counts. -/
def newRecord (names : List String) (vs : List Value) : Eval Value := do
  let base ← Memory.allocate (⟨none, none⟩ :: vs.map fun v ↦ ⟨none, some v⟩)
  return .record base (names.zipIdx (base + 1)).reverse

/-- The cell of an expression that has one. -/
def lvalue (sc : Scope) : ASTExpr → Eval ℕ
  | .variableExpr _ name => Run.orFail .wrongKind (sc.names.lookup name)
  | .deRefExpr _ ptr => do
    let v ← ev.expr sc ptr
    v.dereference
  | .accessExpr _ record field => do
    let v ← ev.expr sc record
    let fields ← expect Value.record? v
    Run.orFail .wrongKind (fields.lookup field)
  | .indexingExpr _ arr idx => do
    let v ← ev.expr sc arr
    let a ← expect Value.array? v
    let w ← ev.expr sc idx
    let i ← expect Value.int? w
    if 0 ≤ i.toInt ∧ i.toInt < a.2.toInt then return a.1 + 1 + i.toInt.toNat
    else Run.fail .arrayBounds
  | _ => Run.fail .wrongKind

/-- The function a value stands for, if it takes the number of arguments. -/
def applicable (v : Value) (arity : ℕ) : Option ASTFunction :=
  v.function?.bind fun decl ↦
    p.functions.find? fun f ↦ f.decl.node = decl ∧ f.formals.length = arity

/-- The body of a function, run on the actuals. -/
def invoke (f : ASTFunction) (actuals : List Value) : Eval Value := do
  let base ← Memory.allocate (f.frame actuals)
  let sc : Scope :=
    ⟨f.decl.node, (f.localDecls.map ASTDeclNode.name).zipIdx base ++ p.globals⟩
  f.body.forM (ev.stmt sc)
  let v ← ev.expr sc f.ret.arg
  Run.emit (.returned f.decl.node v)
  return v

/-- The value of an expression. -/
def evalExpr (sc : Scope) : ASTExpr → Eval Value
  | .numberExpr _ val => pure (.int (BitVec.ofInt 64 val.toInt))
  | .boolExpr _ val => pure (.bool val)
  | .inputExpr _ => do
    let w ← Memory.read
    return .int w
  | .nullExpr _ => pure .null
  | .binaryExpr _ op left right => do
    let l ← ev.expr sc left
    let r ← ev.expr sc right
    op.apply l r
  | .notExpr _ arg => do
    let v ← ev.expr sc arg
    let b ← expect Value.bool? v
    return .bool !b
  | .negExpr _ arg => do
    let v ← ev.expr sc arg
    let w ← expect Value.int? v
    return .int (-w)
  | .funAppExpr n function actuals => do
    let v ← ev.expr sc function
    let vs ← actuals.mapM (ev.expr sc)
    let f ← Run.orFail .wrongKind (applicable p v vs.length)
    Run.emit (.called n sc.function f.decl.node)
    invoke p ev f vs
  | .allocExpr _ initializer => do
    let v ← ev.expr sc initializer
    let a ← Memory.allocate [⟨none, some v⟩]
    return .pointer a
  | .refExpr _ var => do
    let a ← lvalue ev sc var
    return .pointer a
  | .recordExpr _ fields => do
    let vs ← fields.mapM fun fe ↦ ev.expr sc fe.initializer
    newRecord (fields.map ASTFieldExpr.field) vs
  | .ternaryExpr _ condition thenExpr elseExpr => do
    let v ← ev.expr sc condition
    let b ← expect Value.bool? v
    if b then ev.expr sc thenExpr else ev.expr sc elseExpr
  | .arrayExpr _ elements => do
    let vs ← elements.mapM (ev.expr sc)
    newArray (BitVec.ofNat 64 elements.length) vs
  | .arrayOfExpr _ e1 e2 => do
    let v ← ev.expr sc e1
    let length ← expect Value.int? v
    let vs ← (List.replicate length.toInt.toNat e2).mapM (ev.expr sc)
    newArray length vs
  | .arrayLenExpr _ ptr => do
    let v ← ev.expr sc ptr
    let a ← expect Value.array? v
    return .int a.2
  | e@(.variableExpr _ _) | e@(.deRefExpr _ _) | e@(.accessExpr _ _ _)
  | e@(.indexingExpr _ _ _) => do
    let a ← lvalue ev sc e
    Memory.load a

/-- The effect of a statement. -/
def execStmt (sc : Scope) : ASTStmt → Eval Unit
  | .assignStmt _ lhs rhs => do
    let a ← lvalue ev sc lhs
    let v ← ev.expr sc rhs
    let owner ← Memory.owner a
    Run.emit (.assigned lhs owner v)
    Memory.store a v
  | .updateStmt _ arg increment => do
    let a ← lvalue ev sc arg
    let v ← Memory.load a
    let w ← expect Value.int? v
    Memory.store a (.int (if increment then w + 1 else w - 1))
  | .blockStmt _ stmts => stmts.forM (ev.stmt sc)
  | s@(.whileStmt _ condition body) => do
    let v ← ev.expr sc condition
    let b ← expect Value.bool? v
    if b then
      ev.stmt sc body
      ev.stmt sc s
  | .forStmt _ item (.iterator iterator) body => do
    let a ← lvalue ev sc item
    let v ← ev.expr sc iterator
    let arr ← expect Value.array? v
    (List.range arr.2.toInt.toNat).forM fun i ↦ do
      let x ← Memory.load (arr.1 + 1 + i)
      let owner ← Memory.owner a
      Run.emit (.iterated item owner x)
      Memory.store a x
      ev.stmt sc body
  | .forStmt _ item (.range rangeStart rangeEnd increment) body => do
    let a ← lvalue ev sc item
    let v₁ ← ev.expr sc rangeStart
    let first ← expect Value.int? v₁
    let v₂ ← ev.expr sc rangeEnd
    let stop ← expect Value.int? v₂
    let step ← match increment with
      | some e => do
        let v₃ ← ev.expr sc e
        expect Value.int? v₃
      | none => pure 1
    Memory.store a (.int first)
    ev.range sc a stop step body
  | .ifStmt _ condition thenStmt elseStmt => do
    let v ← ev.expr sc condition
    let b ← expect Value.bool? v
    if b then ev.stmt sc thenStmt
    else
      match elseStmt with
      | some s => ev.stmt sc s
      | none => pure ()
  | .outputStmt _ arg => do
    let v ← ev.expr sc arg
    let w ← expect Value.int? v
    Run.emit (.output w)
  | .errorStmt _ arg => do
    let v ← ev.expr sc arg
    let _ ← expect Value.int? v
    Run.fail .error

/-- The rounds of a `for` over a range. The item is read again at the start and at the end of a
round. -/
def execRange (sc : Scope) (item : ℕ) (stop step : Word) (body : ASTStmt) : Eval Unit := do
  let v ← Memory.load item
  let w ← expect Value.int? v
  if w.toInt < stop.toInt then
    ev.stmt sc body
    let v' ← Memory.load item
    let w' ← expect Value.int? v'
    Memory.store item (.int (w' + step))
    ev.range sc item stop step body

end Level

/-! ### Runs -/

/-- Evaluation with the given number of levels. -/
def evaluators (p : ASTProgram) : ℕ → Evaluators
  | 0 =>
    { expr := fun _ _ ↦ Run.timeout
      stmt := fun _ _ ↦ Run.timeout
      range := fun _ _ _ _ _ ↦ Run.timeout }
  | n + 1 =>
    { expr := fun sc e ↦ do
        let v ← evalExpr p (evaluators p n) sc e
        Run.emit (.evaluated e v)
        return v
      stmt := execStmt (evaluators p n)
      range := execRange (evaluators p n) }

/-- The memory a run starts in: the names of the functions hold the functions. -/
def ASTProgram.initialMemory (p : ASTProgram) (input : ℕ → Word) : Memory where
  cells := p.functions.map fun f ↦ ⟨some f.decl.node, some (.function f.decl.node)⟩
  input := input

/-- A run of the program, with the arguments of `main` and the input; `none` where there is no
`main`. -/
def ASTProgram.run (p : ASTProgram) (levels : ℕ) (args input : ℕ → Word) :
    Option (Execution Memory Event Failure Value) :=
  (p.findFunctionByName "main").map fun f ↦
    invoke p (evaluators p levels) f ((List.range f.formals.length).map fun i ↦ .int (args i))
      (p.initialMemory input)

end Sipc
