import Sipc.Semantic.SymbolTable
import Sipc.Semantic.Types.Unifier

/-!
# Type constraints

The rules of `semantic/types/constraints/TypeConstraintVisitor.cpp`, one for each node. A rule is the
list of the constraints that the visitor hands to its handler, in order; the collecting handler
stores them. The top of the scope stack is the declaration of the function being visited.
-/

set_option autoImplicit false
set_option relaxedAutoImplicit false

namespace Sipc

namespace TypeConstraintVisitor

variable (st : SymbolTable) (scope : NodeId)

/-- `astToVar` of an expression. -/
def astToVar (e : ASTExpr) : TipType :=
  .tipVar (st.canonical scope e)

/-- `astToVar` of a declaration. -/
def declToVar (d : ASTDeclNode) : TipType :=
  .tipVar d.node

/-- `endVisit(ASTFunction)`. -/
def endVisitFunction (f : ASTFunction) : List TypeConstraint :=
  let formals := f.formals.map declToVar
  let ret := astToVar st scope f.ret.arg
  if f.name = "main" then
    f.formals.map (fun d ↦ ⟨declToVar d, .int⟩) ++
      [⟨ret, .int⟩, ⟨declToVar f.decl, .function formals ret⟩]
  else [⟨declToVar f.decl, .function formals ret⟩]

/-- `endVisit(ASTBinaryExpr)`. -/
def endVisitBinary (node : ASTExpr) (op : BinaryOp) (left right : ASTExpr) : List TypeConstraint :=
  let result : TypeConstraint :=
    match op with
    | .add | .sub | .mul | .div | .mod => ⟨astToVar st scope node, .int⟩
    | _ => ⟨astToVar st scope node, .bool⟩
  match op with
  | .eq | .ne => [result, ⟨astToVar st scope left, astToVar st scope right⟩]
  | .and | .or => [result, ⟨astToVar st scope left, .bool⟩, ⟨astToVar st scope right, .bool⟩]
  | _ => [result, ⟨astToVar st scope left, .int⟩, ⟨astToVar st scope right, .int⟩]

/-- The type of one field in `endVisit(ASTRecordExpr)`: that of the first initializer with the name
of the field. -/
def fieldType (fields : List ASTFieldExpr) (f : String) : TipType :=
  match fields.find? fun fe ↦ f = fe.field with
  | some fe => astToVar st scope fe.initializer
  | none => .absentField

/-- The type of one field in `endVisit(ASTAccessExpr)`. -/
def accessType (node : ASTExpr) (field f : String) : TipType :=
  if f = field then astToVar st scope node else .var (.alpha node.node none f)

/-- The pairs `i < j` of a list, in the order of the two loops in `endVisit(ASTArrayExpr)`. -/
def pairs {α : Type} : List α → List (α × α)
  | [] => []
  | a :: as => as.map (fun b ↦ (a, b)) ++ pairs as

/-- `endVisit` of the expressions. -/
def endVisitExpr : ASTExpr → List TypeConstraint
  | e@(.numberExpr _ _) => [⟨astToVar st scope e, .int⟩]
  | e@(.boolExpr _ _) => [⟨astToVar st scope e, .bool⟩]
  | e@(.binaryExpr _ op left right) => endVisitBinary st scope e op left right
  | e@(.inputExpr _) => [⟨astToVar st scope e, .int⟩]
  | e@(.funAppExpr _ function actuals) =>
    [⟨astToVar st scope function, .function (actuals.map (astToVar st scope)) (astToVar st scope e)⟩]
  | e@(.allocExpr _ initializer) => [⟨astToVar st scope e, .ref (astToVar st scope initializer)⟩]
  | e@(.refExpr _ var) => [⟨astToVar st scope e, .ref (astToVar st scope var)⟩]
  | e@(.deRefExpr _ ptr) => [⟨astToVar st scope ptr, .ref (astToVar st scope e)⟩]
  | e@(.nullExpr n) => [⟨astToVar st scope e, .ref (.tipAlpha n)⟩]
  | e@(.recordExpr _ fields) =>
    [⟨astToVar st scope e, .record (st.getFields.map (fieldType st scope fields))⟩]
  | e@(.accessExpr _ record field) =>
    [⟨astToVar st scope record, .record (st.getFields.map (accessType st scope e field))⟩]
  | e@(.ternaryExpr _ condition thenExpr elseExpr) =>
    [⟨astToVar st scope condition, .bool⟩, ⟨astToVar st scope thenExpr, astToVar st scope elseExpr⟩,
      ⟨astToVar st scope e, astToVar st scope thenExpr⟩]
  | e@(.arrayExpr _ elements) =>
    (pairs elements).map (fun p ↦ ⟨astToVar st scope p.1, astToVar st scope p.2⟩) ++
      match elements with
      | [] => []
      | first :: _ => [⟨astToVar st scope e, .array (astToVar st scope first)⟩]
  | e@(.indexingExpr _ arr idx) =>
    [⟨astToVar st scope idx, .int⟩, ⟨astToVar st scope arr, .array (astToVar st scope e)⟩]
  | e@(.arrayLenExpr _ ptr) =>
    [⟨astToVar st scope e, .int⟩, ⟨astToVar st scope ptr, .array (.tipAlpha ptr.node)⟩]
  | e@(.arrayOfExpr _ e1 e2) =>
    [⟨astToVar st scope e1, .int⟩, ⟨astToVar st scope e, .array (astToVar st scope e2)⟩]
  | .notExpr _ arg => [⟨astToVar st scope arg, .bool⟩]
  | .negExpr _ arg => [⟨astToVar st scope arg, .int⟩]
  | .variableExpr _ _ => []

/-- `endVisit` of the statements. -/
def endVisitStmt : ASTStmt → List TypeConstraint
  | .assignStmt _ (.deRefExpr _ ptr) rhs => [⟨astToVar st scope ptr, .ref (astToVar st scope rhs)⟩]
  | .assignStmt _ lhs rhs => [⟨astToVar st scope lhs, astToVar st scope rhs⟩]
  | .whileStmt _ condition _ | .ifStmt _ condition _ _ => [⟨astToVar st scope condition, .bool⟩]
  | .outputStmt _ arg | .errorStmt _ arg | .updateStmt _ arg _ => [⟨astToVar st scope arg, .int⟩]
  | .forStmt _ item (.iterator iterator) _ =>
    [⟨astToVar st scope iterator, .array (astToVar st scope item)⟩]
  | .forStmt _ item (.range rangeStart rangeEnd increment) _ =>
    [⟨astToVar st scope item, .int⟩, ⟨astToVar st scope rangeStart, .int⟩,
      ⟨astToVar st scope rangeEnd, .int⟩] ++
      (increment.toList.map fun i ↦ ⟨astToVar st scope i, .int⟩)
  | .blockStmt _ _ => []

/-- `endVisit`. -/
def endVisit : ASTNode → List TypeConstraint
  | .function f => endVisitFunction st scope f
  | .expr e => endVisitExpr st scope e
  | .stmt s => endVisitStmt st scope s
  | .declNode _ | .declStmt _ | .fieldExpr _ | .returnStmt _ => []

/-- The constraints of one call of the visitor. -/
def step : VisitEvent → List TypeConstraint
  | .endVisit n => endVisit st scope n
  | .visit _ => []

end TypeConstraintVisitor

/-- The constraints collected from one function. -/
def ASTFunction.typeConstraints (st : SymbolTable) (f : ASTFunction) : List TypeConstraint :=
  f.accept.flatMap (TypeConstraintVisitor.step st f.decl.node)

/-- The constraints collected from a program. -/
def ASTProgram.typeConstraints (st : SymbolTable) (p : ASTProgram) : List TypeConstraint :=
  p.functions.flatMap (ASTFunction.typeConstraints st)

end Sipc
