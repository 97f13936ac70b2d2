import Mathlib.Algebra.Order.Ring.Int
import Sipc.Frontend.AST
import Sipc.Frontend.ParseTree

/-!
# The structure of trees

What is left of a syntax tree when the addresses of its nodes are forgotten: what kind of node each
is, with the name, literal or operator it holds, and its children in source order. Two ASTs are equal
as trees when they have one shape. A parse tree has the shape of the AST it stands for, with one node
for every function, declaration, statement and expression alternative, and none for parentheses.
-/

set_option autoImplicit false
set_option relaxedAutoImplicit false

namespace Sipc

/-- What a node is and what it holds, beside its children. -/
inductive NodeLabel
  | number (val : ℤ) | bool (val : Bool) | input | null | variable' (name : String)
  | binary (op : String) | not | neg | funApp | alloc | ref | deRef | record | field (name : String)
  | access (field : String) | ternary | array | arrayOf | indexing | arrayLen
  | declNode (name : String) | declStmt
  | assign | update (increment : Bool) | block | while' | forIn' | forRange | forBy | if' | ifElse
  | output | error | return'
  | function (isPoly : Bool)
  deriving DecidableEq, Repr

/-- A tree of labels. -/
inductive Shape
  | node (label : NodeLabel) (children : List Shape)

/-- The operator string of a binary node. -/
def BinaryOp.text : BinaryOp → String
  | .add => "+"
  | .sub => "-"
  | .mul => "*"
  | .div => "/"
  | .mod => "%"
  | .gt => ">"
  | .ge => ">="
  | .lt => "<"
  | .le => "<="
  | .eq => "=="
  | .ne => "!="
  | .and => "and"
  | .or => "or"

mutual

/-- The number of nodes. -/
def Shape.size : Shape → ℕ
  | .node _ children => Shape.sizeList children + 1

def Shape.sizeList : List Shape → ℕ
  | [] => 0
  | c :: cs => c.size + Shape.sizeList cs

end

theorem Shape.sizeList_append (cs ds : List Shape) :
    Shape.sizeList (cs ++ ds) = Shape.sizeList cs + Shape.sizeList ds := by
  induction cs with
  | nil => simp [Shape.sizeList]
  | cons c cs ih => simp only [List.cons_append, Shape.sizeList, ih, Nat.add_assoc]

/-- The names and numbers are such as can be read. -/
def NodeLabel.Lexical : NodeLabel → Prop
  | .number val => -2 ^ 31 < val ∧ val < 2 ^ 31
  | .variable' name | .field name | .access name | .declNode name => IsIdentifier name
  | _ => True

mutual

/-- All names and numbers are such as can be read. -/
def Shape.Lexical : Shape → Prop
  | .node label children => label.Lexical ∧ Shape.LexicalList children

def Shape.LexicalList : List Shape → Prop
  | [] => True
  | c :: cs => c.Lexical ∧ Shape.LexicalList cs

end

theorem Shape.lexicalList_append {cs ds : List Shape} (h : Shape.LexicalList cs)
    (h' : Shape.LexicalList ds) : Shape.LexicalList (cs ++ ds) := by
  induction cs with
  | nil => exact h'
  | cons c cs ih => exact ⟨h.1, ih h.2⟩

/-! ### The shape of an AST -/

mutual

def ASTExpr.shape : ASTExpr → Shape
  | .numberExpr _ val => .node (.number val.toInt) []
  | .boolExpr _ val => .node (.bool val) []
  | .inputExpr _ => .node .input []
  | .nullExpr _ => .node .null []
  | .variableExpr _ name => .node (.variable' name) []
  | .binaryExpr _ op left right => .node (.binary op.text) [left.shape, right.shape]
  | .notExpr _ arg => .node .not [arg.shape]
  | .negExpr _ arg => .node .neg [arg.shape]
  | .funAppExpr _ function actuals =>
    .node .funApp (function.shape :: ASTExpr.shapeList actuals)
  | .allocExpr _ initializer => .node .alloc [initializer.shape]
  | .refExpr _ var => .node .ref [var.shape]
  | .deRefExpr _ ptr => .node .deRef [ptr.shape]
  | .recordExpr _ fields => .node .record (ASTExpr.shapeFields fields)
  | .accessExpr _ record field => .node (.access field) [record.shape]
  | .ternaryExpr _ condition thenExpr elseExpr =>
    .node .ternary [condition.shape, thenExpr.shape, elseExpr.shape]
  | .arrayExpr _ elements => .node .array (ASTExpr.shapeList elements)
  | .arrayOfExpr _ e1 e2 => .node .arrayOf [e1.shape, e2.shape]
  | .indexingExpr _ arr idx => .node .indexing [arr.shape, idx.shape]
  | .arrayLenExpr _ ptr => .node .arrayLen [ptr.shape]

def ASTExpr.shapeList : List ASTExpr → List Shape
  | [] => []
  | e :: es => e.shape :: ASTExpr.shapeList es

def ASTExpr.shapeFields : List ASTFieldExpr → List Shape
  | [] => []
  | .mk _ field initializer :: fs =>
    .node (.field field) [initializer.shape] :: ASTExpr.shapeFields fs

end

mutual

def ASTStmt.shape : ASTStmt → Shape
  | .assignStmt _ lhs rhs => .node .assign [lhs.shape, rhs.shape]
  | .updateStmt _ arg increment => .node (.update increment) [arg.shape]
  | .blockStmt _ stmts => .node .block (ASTStmt.shapeList stmts)
  | .whileStmt _ condition body => .node .while' [condition.shape, body.shape]
  | .forStmt _ item (.iterator iterator) body =>
    .node .forIn' [item.shape, iterator.shape, body.shape]
  | .forStmt _ item (.range rangeStart rangeEnd none) body =>
    .node .forRange [item.shape, rangeStart.shape, rangeEnd.shape, body.shape]
  | .forStmt _ item (.range rangeStart rangeEnd (some increment)) body =>
    .node .forBy [item.shape, rangeStart.shape, rangeEnd.shape, increment.shape, body.shape]
  | .ifStmt _ condition thenStmt none => .node .if' [condition.shape, thenStmt.shape]
  | .ifStmt _ condition thenStmt (some elseStmt) =>
    .node .ifElse [condition.shape, thenStmt.shape, elseStmt.shape]
  | .outputStmt _ arg => .node .output [arg.shape]
  | .errorStmt _ arg => .node .error [arg.shape]

def ASTStmt.shapeList : List ASTStmt → List Shape
  | [] => []
  | s :: ss => s.shape :: ASTStmt.shapeList ss

end

def ASTDeclNode.shape (d : ASTDeclNode) : Shape :=
  .node (.declNode d.name) []

def ASTDeclStmt.shape (s : ASTDeclStmt) : Shape :=
  .node .declStmt (s.vars.map ASTDeclNode.shape)

def ASTReturnStmt.shape (s : ASTReturnStmt) : Shape :=
  .node .return' [s.arg.shape]

def ASTFunction.shape (f : ASTFunction) : Shape :=
  .node (.function f.isPoly)
    (f.decl.shape :: f.formals.map ASTDeclNode.shape ++ f.declarations.map ASTDeclStmt.shape ++
      ASTStmt.shapeList f.body ++ [f.ret.shape])

def ASTProgram.shapes (p : ASTProgram) : List Shape :=
  p.functions.map ASTFunction.shape

/-! ### The shape of a parse tree -/

mutual

def ExprContext.shape : ExprContext → Shape
  | .funAppExpr function actuals =>
    .node .funApp (function.shape :: ExprContext.shapeList actuals)
  | .accessExpr record field => .node (.access field.text) [record.shape]
  | .deRefExpr ptr => .node .deRef [ptr.shape]
  | .arrayIndexingExpr arr idx => .node .indexing [arr.shape, idx.shape]
  | .negNumber number => .node (.number (-number.value)) []
  | .negExpr arg => .node .neg [arg.shape]
  | .refExpr var => .node .ref [var.shape]
  | .arrayLenExpr ptr => .node .arrayLen [ptr.shape]
  | .notExpr arg => .node .not [arg.shape]
  | .multiplicativeExpr op left right | .additiveExpr op left right | .relationalExpr op left right
  | .equalityExpr op left right | .nonShortCircuiting op left right | .boolOps op left right =>
    .node (.binary op.1.text) [left.shape, right.shape]
  | .ternaryExpr condition thenExpr elseExpr =>
    .node .ternary [condition.shape, thenExpr.shape, elseExpr.shape]
  | .varExpr name => .node (.variable' name.text) []
  | .numExpr number => .node (.number number.value) []
  | .inputExpr => .node .input []
  | .allocExpr initializer => .node .alloc [initializer.shape]
  | .nullExpr => .node .null []
  | .boolExpr op => .node (.bool (op.1 = .kTrue)) []
  | .recordRule fields => .node .record (ExprContext.shapeFields fields)
  | .arrayLiteral elements => .node .array (ExprContext.shapeList elements)
  | .arrayOfExpr e1 e2 => .node .arrayOf [e1.shape, e2.shape]
  | .parenExpr expr => expr.shape

def ExprContext.shapeList : List ExprContext → List Shape
  | [] => []
  | e :: es => e.shape :: ExprContext.shapeList es

def ExprContext.shapeFields : List FieldExprContext → List Shape
  | [] => []
  | .mk field initializer :: fs =>
    .node (.field field.text) [initializer.shape] :: ExprContext.shapeFields fs

end

mutual

def StatementContext.shape : StatementContext → Shape
  | .blockStmt stmts => .node .block (StatementContext.shapeList stmts)
  | .assignStmt lhs rhs => .node .assign [lhs.shape, rhs.shape]
  | .updateStmt arg op => .node (.update (op.1 = .pp)) [arg.shape]
  | .whileStmt condition body => .node .while' [condition.shape, body.shape]
  | .forByStmt item rangeStart rangeEnd increment body =>
    .node .forBy [item.shape, rangeStart.shape, rangeEnd.shape, increment.shape, body.shape]
  | .forRangeStmt item rangeStart rangeEnd body =>
    .node .forRange [item.shape, rangeStart.shape, rangeEnd.shape, body.shape]
  | .forInStmt item iterator body => .node .forIn' [item.shape, iterator.shape, body.shape]
  | .ifStmt condition thenStmt => .node .if' [condition.shape, thenStmt.shape]
  | .ifElseStmt condition thenStmt elseStmt =>
    .node .ifElse [condition.shape, thenStmt.shape, elseStmt.shape]
  | .outputStmt arg => .node .output [arg.shape]
  | .errorStmt arg => .node .error [arg.shape]

def StatementContext.shapeList : List StatementContext → List Shape
  | [] => []
  | s :: ss => s.shape :: StatementContext.shapeList ss

end

def nameShape (x : Identifier) : Shape :=
  .node (.declNode x.text) []

def DeclarationContext.shape (d : DeclarationContext) : Shape :=
  .node .declStmt (d.names.map nameShape)

def FunctionContext.shape (f : FunctionContext) : Shape :=
  .node (.function f.poly)
    (nameShape f.name :: f.formals.map nameShape ++ f.declarations.map DeclarationContext.shape ++
      StatementContext.shapeList f.statements ++ [.node .return' [f.returned.shape]])

def ProgramContext.shapes (p : ProgramContext) : List Shape :=
  p.functions.map FunctionContext.shape

end Sipc
