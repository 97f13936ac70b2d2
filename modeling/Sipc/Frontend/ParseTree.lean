import Sipc.Frontend.Token

/-!
# Parse trees

The parse trees of `tipg4/TIP.g4`, with one constructor for every labelled alternative of `expr` and
every form of a statement. The yield of a tree is the sequence of its tokens.
-/

set_option autoImplicit false
set_option relaxedAutoImplicit false

namespace Sipc

mutual

/-- The rule `expr`. -/
inductive ExprContext
  | funAppExpr (function : ExprContext) (actuals : List ExprContext)
  | accessExpr (record : ExprContext) (field : Identifier)
  | deRefExpr (ptr : ExprContext)
  | arrayIndexingExpr (arr idx : ExprContext)
  | negNumber (number : Numeral)
  | negExpr (arg : ExprContext)
  | refExpr (var : ExprContext)
  | arrayLenExpr (ptr : ExprContext)
  | notExpr (arg : ExprContext)
  | multiplicativeExpr (op : OneOf [.mul, .div, .mod]) (left right : ExprContext)
  | additiveExpr (op : OneOf [.add, .sub]) (left right : ExprContext)
  | relationalExpr (op : OneOf [.gt, .lte, .gte, .lt]) (left right : ExprContext)
  | equalityExpr (op : OneOf [.eq, .ne]) (left right : ExprContext)
  | ternaryExpr (condition thenExpr elseExpr : ExprContext)
  | varExpr (name : Identifier)
  | numExpr (number : Numeral)
  | inputExpr
  | allocExpr (initializer : ExprContext)
  | nullExpr
  | boolExpr (op : OneOf [.kTrue, .kFalse])
  | recordRule (fields : List FieldExprContext)
  | arrayLiteral (elements : List ExprContext)
  | arrayOfExpr (e1 e2 : ExprContext)
  | nonShortCircuiting (op : OneOf [.lor, .land]) (left right : ExprContext)
  | boolOps (op : OneOf [.kAnd, .kOr]) (left right : ExprContext)
  | parenExpr (expr : ExprContext)

/-- The rule `fieldExpr`. -/
inductive FieldExprContext
  | mk (field : Identifier) (initializer : ExprContext)

end

/-- The rule `statement` and the rules it names. -/
inductive StatementContext
  | blockStmt (stmts : List StatementContext)
  | assignStmt (lhs rhs : ExprContext)
  | updateStmt (arg : ExprContext) (op : OneOf [.mm, .pp])
  | whileStmt (condition : ExprContext) (body : StatementContext)
  | forByStmt (item rangeStart rangeEnd increment : ExprContext) (body : StatementContext)
  | forRangeStmt (item rangeStart rangeEnd : ExprContext) (body : StatementContext)
  | forInStmt (item iterator : ExprContext) (body : StatementContext)
  | ifStmt (condition : ExprContext) (thenStmt : StatementContext)
  | ifElseStmt (condition : ExprContext) (thenStmt elseStmt : StatementContext)
  | outputStmt (arg : ExprContext)
  | errorStmt (arg : ExprContext)

/-- The rule `declaration`: a first name and further ones. -/
structure DeclarationContext where
  first : Identifier
  more : List Identifier

/-- The rule `function`. -/
structure FunctionContext where
  name : Identifier
  formals : List Identifier
  poly : Bool
  declarations : List DeclarationContext
  statements : List StatementContext
  returned : ExprContext

/-- The rule `program`: a first function and further ones. -/
structure ProgramContext where
  first : FunctionContext
  more : List FunctionContext

/-- `ctx->nameDeclaration()` of a declaration. -/
def DeclarationContext.names (d : DeclarationContext) : List Identifier :=
  d.first :: d.more

/-- `ctx->function()`. -/
def ProgramContext.functions (p : ProgramContext) : List FunctionContext :=
  p.first :: p.more

/-! ### The yield of a tree -/

/-- The parts, with commas between them. -/
def commas : List (List Token) → List Token
  | [] => []
  | [ts] => ts
  | ts :: ts' :: tss => ts ++ .comma :: commas (ts' :: tss)

mutual

def ExprContext.tokens : ExprContext → List Token
  | .funAppExpr function actuals =>
    function.tokens ++ .lparen :: commas (ExprContext.tokensList actuals) ++ [.rparen]
  | .accessExpr record field => record.tokens ++ [.dot, .identifier field]
  | .deRefExpr ptr => .mul :: ptr.tokens
  | .arrayIndexingExpr arr idx => arr.tokens ++ .lbracket :: idx.tokens ++ [.rbracket]
  | .negNumber number => [.sub, .number number]
  | .negExpr arg => .sub :: arg.tokens
  | .refExpr var => .land :: var.tokens
  | .arrayLenExpr ptr => .hash :: ptr.tokens
  | .notExpr arg => .kNot :: arg.tokens
  | .multiplicativeExpr op left right | .additiveExpr op left right | .relationalExpr op left right
  | .equalityExpr op left right | .nonShortCircuiting op left right | .boolOps op left right =>
    left.tokens ++ op.1 :: right.tokens
  | .ternaryExpr condition thenExpr elseExpr =>
    condition.tokens ++ .question :: thenExpr.tokens ++ .colon :: elseExpr.tokens
  | .varExpr name => [.identifier name]
  | .numExpr number => [.number number]
  | .inputExpr => [.kInput]
  | .allocExpr initializer => .kAlloc :: initializer.tokens
  | .nullExpr => [.kNull]
  | .boolExpr op => [op.1]
  | .recordRule fields => .lbrace :: commas (ExprContext.tokensFields fields) ++ [.rbrace]
  | .arrayLiteral elements => .lbracket :: commas (ExprContext.tokensList elements) ++ [.rbracket]
  | .arrayOfExpr e1 e2 => .lbracket :: e1.tokens ++ .kOf :: e2.tokens ++ [.rbracket]
  | .parenExpr expr => .lparen :: expr.tokens ++ [.rparen]

def ExprContext.tokensList : List ExprContext → List (List Token)
  | [] => []
  | e :: es => e.tokens :: ExprContext.tokensList es

def ExprContext.tokensFields : List FieldExprContext → List (List Token)
  | [] => []
  | .mk field initializer :: fs =>
    (.identifier field :: .colon :: initializer.tokens) :: ExprContext.tokensFields fs

end

/-! ### The expressions in a tree -/

mutual

/-- The expression and the ones inside it. -/
def ExprContext.exprs : ExprContext → List ExprContext
  | e@(.funAppExpr function actuals) => e :: (function.exprs ++ ExprContext.exprsList actuals)
  | e@(.accessExpr record _) => e :: record.exprs
  | e@(.deRefExpr ptr) => e :: ptr.exprs
  | e@(.arrayIndexingExpr arr idx) => e :: (arr.exprs ++ idx.exprs)
  | e@(.negNumber _) => [e]
  | e@(.negExpr arg) => e :: arg.exprs
  | e@(.refExpr var) => e :: var.exprs
  | e@(.arrayLenExpr ptr) => e :: ptr.exprs
  | e@(.notExpr arg) => e :: arg.exprs
  | e@(.multiplicativeExpr _ left right) => e :: (left.exprs ++ right.exprs)
  | e@(.additiveExpr _ left right) => e :: (left.exprs ++ right.exprs)
  | e@(.relationalExpr _ left right) => e :: (left.exprs ++ right.exprs)
  | e@(.equalityExpr _ left right) => e :: (left.exprs ++ right.exprs)
  | e@(.ternaryExpr condition thenExpr elseExpr) =>
    e :: (condition.exprs ++ (thenExpr.exprs ++ elseExpr.exprs))
  | e@(.varExpr _) => [e]
  | e@(.numExpr _) => [e]
  | e@(.inputExpr) => [e]
  | e@(.allocExpr initializer) => e :: initializer.exprs
  | e@(.nullExpr) => [e]
  | e@(.boolExpr _) => [e]
  | e@(.recordRule fields) => e :: ExprContext.exprsFields fields
  | e@(.arrayLiteral elements) => e :: ExprContext.exprsList elements
  | e@(.arrayOfExpr e1 e2) => e :: (e1.exprs ++ e2.exprs)
  | e@(.nonShortCircuiting _ left right) => e :: (left.exprs ++ right.exprs)
  | e@(.boolOps _ left right) => e :: (left.exprs ++ right.exprs)
  | e@(.parenExpr expr) => e :: expr.exprs

def ExprContext.exprsList : List ExprContext → List ExprContext
  | [] => []
  | e :: es => e.exprs ++ ExprContext.exprsList es

def ExprContext.exprsFields : List FieldExprContext → List ExprContext
  | [] => []
  | .mk _ initializer :: fs => initializer.exprs ++ ExprContext.exprsFields fs

end

mutual

def StatementContext.exprs : StatementContext → List ExprContext
  | .blockStmt stmts => StatementContext.exprsList stmts
  | .assignStmt lhs rhs => lhs.exprs ++ rhs.exprs
  | .updateStmt arg _ => arg.exprs
  | .whileStmt condition body => condition.exprs ++ body.exprs
  | .forByStmt item rangeStart rangeEnd increment body =>
    item.exprs ++ (rangeStart.exprs ++ (rangeEnd.exprs ++ (increment.exprs ++ body.exprs)))
  | .forRangeStmt item rangeStart rangeEnd body =>
    item.exprs ++ (rangeStart.exprs ++ (rangeEnd.exprs ++ body.exprs))
  | .forInStmt item iterator body => item.exprs ++ (iterator.exprs ++ body.exprs)
  | .ifStmt condition thenStmt => condition.exprs ++ thenStmt.exprs
  | .ifElseStmt condition thenStmt elseStmt =>
    condition.exprs ++ (thenStmt.exprs ++ elseStmt.exprs)
  | .outputStmt arg => arg.exprs
  | .errorStmt arg => arg.exprs

def StatementContext.exprsList : List StatementContext → List ExprContext
  | [] => []
  | s :: ss => s.exprs ++ StatementContext.exprsList ss

end

def FunctionContext.exprs (f : FunctionContext) : List ExprContext :=
  StatementContext.exprsList f.statements ++ f.returned.exprs

def ProgramContext.exprs (p : ProgramContext) : List ExprContext :=
  p.functions.flatMap FunctionContext.exprs

end Sipc
