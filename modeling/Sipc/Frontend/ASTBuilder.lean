import Sipc.Frontend.Shape
import Sipc.Library.Execution

/-!
# The AST builder

`frontend/ast/ASTBuilder`, a visitor of parse trees that hands its results up in static variables. A
rule without a method of its own gets the generated one, which visits the children.
-/

set_option autoImplicit false
set_option relaxedAutoImplicit false

namespace Sipc

open Library

/-- What the builder throws: the `out_of_range` of `std::stoi`, or the error of `opString`. A null
pointer has undefined behaviour. -/
inductive BuildError
  | outOfRange (literal : Numeral)
  | unknownOperator (op : Token)
  | nullPointer

/-- The static variables, and the address of the next object. A return statement, which has a type of
its own here, has a variable of its own too. -/
structure BuilderState where
  visitedStmt : Option ASTStmt
  visitedReturnStmt : Option ASTReturnStmt
  visitedDeclNode : Option ASTDeclNode
  visitedDeclStmt : Option ASTDeclStmt
  visitedExpr : Option ASTExpr
  visitedFieldExpr : Option ASTFieldExpr
  visitedFunction : Option ASTFunction
  next : NodeId

def BuilderState.initial : BuilderState where
  visitedStmt := none
  visitedReturnStmt := none
  visitedDeclNode := none
  visitedDeclStmt := none
  visitedExpr := none
  visitedFieldExpr := none
  visitedFunction := none
  next := 0

/-- A method of the builder. -/
abbrev Build := Run BuilderState Empty BuildError

/-- The address that `make_shared` gives. -/
def makeShared : Build NodeId :=
  Run.access fun s ↦ (s.next, { s with next := s.next + 1 })

/-- The value of a static variable. -/
def readVisited {α : Type} (f : BuilderState → Option α) : Build α := do
  let o ← Run.access fun s ↦ (f s, s)
  Run.orFail .nullPointer o

def setVisitedExpr (e : ASTExpr) : Build Unit :=
  Run.access fun s ↦ ((), { s with visitedExpr := some e })

def setVisitedFieldExpr (f : ASTFieldExpr) : Build Unit :=
  Run.access fun s ↦ ((), { s with visitedFieldExpr := some f })

def setVisitedStmt (stmt : ASTStmt) : Build Unit :=
  Run.access fun s ↦ ((), { s with visitedStmt := some stmt })

def setVisitedReturnStmt (stmt : ASTReturnStmt) : Build Unit :=
  Run.access fun s ↦ ((), { s with visitedReturnStmt := some stmt })

def setVisitedDeclNode (d : ASTDeclNode) : Build Unit :=
  Run.access fun s ↦ ((), { s with visitedDeclNode := some d })

def setVisitedDeclStmt (stmt : ASTDeclStmt) : Build Unit :=
  Run.access fun s ↦ ((), { s with visitedDeclStmt := some stmt })

def setVisitedFunction (f : ASTFunction) : Build Unit :=
  Run.access fun s ↦ ((), { s with visitedFunction := some f })

/-- `ASTBuilder::opString`. -/
def opString : Token → Build String
  | .mul => return "*"
  | .div => return "/"
  | .add => return "+"
  | .sub => return "-"
  | .mm => return "--"
  | .pp => return "++"
  | .mod => return "%"
  | .gt => return ">"
  | .gte => return ">="
  | .lt => return "<"
  | .lte => return "<="
  | .eq => return "=="
  | .ne => return "!="
  | .kAnd => return "and"
  | .kOr => return "or"
  | t => Run.fail (.unknownOperator t)

/-- The operator of a binary node with the string. -/
def BinaryOp.ofText (text : String) : Option BinaryOp :=
  [add, sub, mul, div, mod, gt, ge, lt, le, eq, ne, and, or].find? fun op ↦ op.text = text

/-- `std::stoi` on the text of a number. -/
def stoi (n : Numeral) : Build Int32 :=
  if n.value < 2 ^ 31 then return Int32.ofNat n.value
  else Run.fail (.outOfRange n)

/-- `visitBinaryExpr`, and the call of `opString` that gives its second argument. -/
def visitBinaryExpr (visitLeft visitRight : Build Unit) (op : Token) : Build Unit := do
  let op ← opString op
  visitLeft
  let lhs ← readVisited BuilderState.visitedExpr
  visitRight
  let rhs ← readVisited BuilderState.visitedExpr
  let op ← Run.orFail .nullPointer (BinaryOp.ofText op)
  let node ← makeShared
  setVisitedExpr (.binaryExpr node op lhs rhs)

mutual

/-- `visit` on an expression. -/
def ExprContext.visit : ExprContext → Build Unit
  | .funAppExpr function actuals => do
    function.visit
    let fExpr ← readVisited BuilderState.visitedExpr
    let fArgs ← ExprContext.visitList actuals
    let node ← makeShared
    setVisitedExpr (.funAppExpr node fExpr fArgs)
  | .accessExpr record field => do
    record.visit
    let rExpr ← readVisited BuilderState.visitedExpr
    let node ← makeShared
    setVisitedExpr (.accessExpr node rExpr field.text)
  | .deRefExpr ptr => do
    ptr.visit
    let expr ← readVisited BuilderState.visitedExpr
    let node ← makeShared
    setVisitedExpr (.deRefExpr node expr)
  | .arrayIndexingExpr arr idx => do
    arr.visit
    let arr ← readVisited BuilderState.visitedExpr
    idx.visit
    let idx ← readVisited BuilderState.visitedExpr
    let node ← makeShared
    setVisitedExpr (.indexingExpr node arr idx)
  | .negNumber number => do
    let val ← stoi number
    let node ← makeShared
    setVisitedExpr (.numberExpr node (-val))
  | .negExpr arg => do
    arg.visit
    let expr ← readVisited BuilderState.visitedExpr
    let node ← makeShared
    setVisitedExpr (.negExpr node expr)
  | .refExpr var => do
    var.visit
    let expr ← readVisited BuilderState.visitedExpr
    let node ← makeShared
    setVisitedExpr (.refExpr node expr)
  | .arrayLenExpr ptr => do
    ptr.visit
    let expr ← readVisited BuilderState.visitedExpr
    let node ← makeShared
    setVisitedExpr (.arrayLenExpr node expr)
  | .notExpr arg => do
    arg.visit
    let expr ← readVisited BuilderState.visitedExpr
    let node ← makeShared
    setVisitedExpr (.notExpr node expr)
  | .multiplicativeExpr op left right => visitBinaryExpr left.visit right.visit op
  | .additiveExpr op left right => visitBinaryExpr left.visit right.visit op
  | .relationalExpr op left right => visitBinaryExpr left.visit right.visit op
  | .equalityExpr op left right => visitBinaryExpr left.visit right.visit op
  | .ternaryExpr condition thenExpr elseExpr => do
    condition.visit
    let cond ← readVisited BuilderState.visitedExpr
    thenExpr.visit
    let thenExpr ← readVisited BuilderState.visitedExpr
    elseExpr.visit
    let elseExpr ← readVisited BuilderState.visitedExpr
    let node ← makeShared
    setVisitedExpr (.ternaryExpr node cond thenExpr elseExpr)
  | .varExpr name => do
    let node ← makeShared
    setVisitedExpr (.variableExpr node name.text)
  | .numExpr number => do
    let val ← stoi number
    let node ← makeShared
    setVisitedExpr (.numberExpr node val)
  | .inputExpr => do
    let node ← makeShared
    setVisitedExpr (.inputExpr node)
  | .allocExpr initializer => do
    initializer.visit
    let expr ← readVisited BuilderState.visitedExpr
    let node ← makeShared
    setVisitedExpr (.allocExpr node expr)
  | .nullExpr => do
    let node ← makeShared
    setVisitedExpr (.nullExpr node)
  | .boolExpr op => do
    let node ← makeShared
    setVisitedExpr (.boolExpr node (op.1.text = "true"))
  | .recordRule fields => do
    let rFields ← ExprContext.visitFields fields
    let node ← makeShared
    setVisitedExpr (.recordExpr node rFields)
  | .arrayLiteral elements => do
    let elements ← ExprContext.visitList elements
    let node ← makeShared
    setVisitedExpr (.arrayExpr node elements)
  | .arrayOfExpr e1 e2 => do
    e1.visit
    let first ← readVisited BuilderState.visitedExpr
    e2.visit
    let second ← readVisited BuilderState.visitedExpr
    let node ← makeShared
    setVisitedExpr (.arrayOfExpr node first second)
  | .nonShortCircuiting _ left right => do
    -- there is no method for this alternative, so its children are visited
    left.visit
    right.visit
  | .boolOps op left right => visitBinaryExpr left.visit right.visit op
  | .parenExpr expr => expr.visit

/-- The loop over expressions whose results are collected. -/
def ExprContext.visitList : List ExprContext → Build (List ASTExpr)
  | [] => return []
  | e :: es => do
    e.visit
    let expr ← readVisited BuilderState.visitedExpr
    let exprs ← ExprContext.visitList es
    return expr :: exprs

/-- The loop over the fields of a record. -/
def ExprContext.visitFields : List FieldExprContext → Build (List ASTFieldExpr)
  | [] => return []
  | .mk field initializer :: fs => do
    initializer.visit
    let init ← readVisited BuilderState.visitedExpr
    let node ← makeShared
    setVisitedFieldExpr (.mk node field.text init)
    let rField ← readVisited BuilderState.visitedFieldExpr
    let rFields ← ExprContext.visitFields fs
    return rField :: rFields

end

mutual

/-- `visit` on a statement. -/
def StatementContext.visit : StatementContext → Build Unit
  | .blockStmt stmts => do
    let bStmts ← StatementContext.visitList stmts
    let node ← makeShared
    setVisitedStmt (.blockStmt node bStmts)
  | .assignStmt lhs rhs => do
    lhs.visit
    let lhs ← readVisited BuilderState.visitedExpr
    rhs.visit
    let rhs ← readVisited BuilderState.visitedExpr
    let node ← makeShared
    setVisitedStmt (.assignStmt node lhs rhs)
  | .updateStmt arg op => do
    arg.visit
    let expr ← readVisited BuilderState.visitedExpr
    let op ← opString op
    let node ← makeShared
    setVisitedStmt (.updateStmt node expr (op = "++"))
  | .whileStmt condition body => do
    condition.visit
    let cond ← readVisited BuilderState.visitedExpr
    body.visit
    let body ← readVisited BuilderState.visitedStmt
    let node ← makeShared
    setVisitedStmt (.whileStmt node cond body)
  | .forByStmt item rangeStart rangeEnd increment body => do
    item.visit
    let item ← readVisited BuilderState.visitedExpr
    rangeStart.visit
    let rangeStart ← readVisited BuilderState.visitedExpr
    rangeEnd.visit
    let rangeEnd ← readVisited BuilderState.visitedExpr
    increment.visit
    let increment ← readVisited BuilderState.visitedExpr
    body.visit
    let body ← readVisited BuilderState.visitedStmt
    let node ← makeShared
    setVisitedStmt (.forStmt node item (.range rangeStart rangeEnd (some increment)) body)
  | .forRangeStmt item rangeStart rangeEnd body => do
    item.visit
    let item ← readVisited BuilderState.visitedExpr
    rangeStart.visit
    let rangeStart ← readVisited BuilderState.visitedExpr
    rangeEnd.visit
    let rangeEnd ← readVisited BuilderState.visitedExpr
    body.visit
    let body ← readVisited BuilderState.visitedStmt
    let node ← makeShared
    setVisitedStmt (.forStmt node item (.range rangeStart rangeEnd none) body)
  | .forInStmt item iterator body => do
    item.visit
    let item ← readVisited BuilderState.visitedExpr
    iterator.visit
    let iterator ← readVisited BuilderState.visitedExpr
    body.visit
    let body ← readVisited BuilderState.visitedStmt
    let node ← makeShared
    setVisitedStmt (.forStmt node item (.iterator iterator) body)
  | .ifStmt condition thenStmt => do
    condition.visit
    let cond ← readVisited BuilderState.visitedExpr
    thenStmt.visit
    let thenBody ← readVisited BuilderState.visitedStmt
    let node ← makeShared
    setVisitedStmt (.ifStmt node cond thenBody none)
  | .ifElseStmt condition thenStmt elseStmt => do
    condition.visit
    let cond ← readVisited BuilderState.visitedExpr
    thenStmt.visit
    let thenBody ← readVisited BuilderState.visitedStmt
    elseStmt.visit
    let elseBody ← readVisited BuilderState.visitedStmt
    let node ← makeShared
    setVisitedStmt (.ifStmt node cond thenBody (some elseBody))
  | .outputStmt arg => do
    arg.visit
    let expr ← readVisited BuilderState.visitedExpr
    let node ← makeShared
    setVisitedStmt (.outputStmt node expr)
  | .errorStmt arg => do
    arg.visit
    let expr ← readVisited BuilderState.visitedExpr
    let node ← makeShared
    setVisitedStmt (.errorStmt node expr)

/-- The loop over statements whose results are collected. -/
def StatementContext.visitList : List StatementContext → Build (List ASTStmt)
  | [] => return []
  | s :: ss => do
    s.visit
    let stmt ← readVisited BuilderState.visitedStmt
    let stmts ← StatementContext.visitList ss
    return stmt :: stmts

end

/-- `visitNameDeclaration`. -/
def visitNameDeclaration (x : Identifier) : Build Unit := do
  let node ← makeShared
  setVisitedDeclNode ⟨node, x.text⟩

/-- The loops over name declarations. -/
def visitNameDeclarations (xs : List Identifier) : Build (List ASTDeclNode) :=
  xs.mapM fun x ↦ do
    visitNameDeclaration x
    readVisited BuilderState.visitedDeclNode

/-- `visitDeclaration`. -/
def DeclarationContext.visit (d : DeclarationContext) : Build Unit := do
  let dVars ← visitNameDeclarations d.names
  let node ← makeShared
  setVisitedDeclStmt ⟨node, dVars⟩

/-- `visitReturnStmt`. -/
def visitReturnStmt (expr : ExprContext) : Build Unit := do
  expr.visit
  let expr ← readVisited BuilderState.visitedExpr
  let node ← makeShared
  setVisitedReturnStmt ⟨node, expr⟩

/-- `visitFunction`. The first name is that of the function. -/
def FunctionContext.visit (f : FunctionContext) : Build Unit := do
  visitNameDeclaration f.name
  let fName ← readVisited BuilderState.visitedDeclNode
  let fParams ← visitNameDeclarations f.formals
  let fDecls ← f.declarations.mapM fun d ↦ do
    d.visit
    readVisited BuilderState.visitedDeclStmt
  let fBody ← StatementContext.visitList f.statements
  visitReturnStmt f.returned
  let ret ← readVisited BuilderState.visitedReturnStmt
  let node ← makeShared
  setVisitedFunction ⟨node, fName, fParams, fDecls, fBody, ret, f.poly⟩

/-- `ASTBuilder::build`. The last test never fails, since every node has an address of its own. -/
def ASTBuilder.build (p : ProgramContext) : Build ASTProgram := do
  let functions ← p.functions.mapM fun f ↦ do
    f.visit
    readVisited BuilderState.visitedFunction
  if distinct : (visitedNodes (functions.flatMap ASTFunction.accept)).Nodup then
    return ⟨functions, distinct⟩
  else Run.fail .nullPointer

end Sipc
