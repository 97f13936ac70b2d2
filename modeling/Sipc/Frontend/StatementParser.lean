import Sipc.Frontend.ExprParserFuel
import Sipc.Library.Choices

/-!
# Parsing statements and functions

The rules `statement`, `declaration` and `function` of `tipg4/TIP.g4`. Where several alternatives
begin in the same way, the parser that ANTLR generates takes the first one with which the rest of the
input can still be matched, so the alternatives stand in the order of the grammar and the first way to
read all of a function is taken (`parseFunction`). The optional `else` is greedy. An expression is read
by `parseExpr`, in one way at most.
-/

set_option autoImplicit false
set_option relaxedAutoImplicit false

namespace Sipc

open Library Library.Choices

/-- A way to read a rule of the grammar. -/
abbrev Rule (α : Type) := Choices Token α

/-- The rule `expr`. -/
def exprRule (n : ℕ) : Rule ExprContext :=
  lift (parseExpr n 0)

/-- The rule `nameDeclaration`. -/
def nameRule : Rule Identifier :=
  next fun
    | .identifier x => some x
    | _ => none

/-- The names behind the first one of a list. -/
def moreNamesRule (n : ℕ) : Rule (List Identifier) :=
  many (do token .comma; nameRule) n

/-- The rule `declaration`. -/
def declarationRule (n : ℕ) : Rule DeclarationContext := do
  token .kVar
  let first ← nameRule
  let more ← moreNamesRule n
  token .semi
  return { first, more }

/-! ### Statements -/

section Statements

variable (n : ℕ) (statement : Rule StatementContext)

def blockStmtRule (statements : Rule (List StatementContext)) : Rule StatementContext := do
  token .lbrace
  let stmts ← statements
  token .rbrace
  return .blockStmt stmts

def assignStmtRule : Rule StatementContext := do
  let lhs ← exprRule n
  token .assign
  let rhs ← exprRule n
  token .semi
  return .assignStmt lhs rhs

/-- `op=(MM | PP)`. -/
def updateOpRule : Rule (OneOf [.mm, .pp]) :=
  next fun t ↦ if h : t ∈ [.mm, .pp] then some ⟨t, h⟩ else none

def updateStmtRule : Rule StatementContext := do
  let arg ← exprRule n
  let op ← updateOpRule
  token .semi
  return .updateStmt arg op

def whileStmtRule : Rule StatementContext := do
  token .kWhile
  token .lparen
  let condition ← exprRule n
  token .rparen
  let body ← statement
  return .whileStmt condition body

/-- The first alternative of `forStmt`. -/
def forByStmtRule : Rule StatementContext := do
  token .kFor
  token .lparen
  let item ← exprRule n
  token .colon
  let rangeStart ← exprRule n
  token .dotDot
  let rangeEnd ← exprRule n
  token .kBy
  let increment ← exprRule n
  token .rparen
  let body ← statement
  return .forByStmt item rangeStart rangeEnd increment body

/-- The second alternative of `forStmt`. -/
def forRangeStmtRule : Rule StatementContext := do
  token .kFor
  token .lparen
  let item ← exprRule n
  token .colon
  let rangeStart ← exprRule n
  token .dotDot
  let rangeEnd ← exprRule n
  token .rparen
  let body ← statement
  return .forRangeStmt item rangeStart rangeEnd body

/-- The third alternative of `forStmt`. -/
def forInStmtRule : Rule StatementContext := do
  token .kFor
  token .lparen
  let item ← exprRule n
  token .colon
  let iterator ← exprRule n
  token .rparen
  let body ← statement
  return .forInStmt item iterator body

def ifStmtRule : Rule StatementContext := do
  token .kIf
  token .lparen
  let condition ← exprRule n
  token .rparen
  let thenStmt ← statement
  ifNext .kElse
    (do
      let elseStmt ← statement
      return .ifElseStmt condition thenStmt elseStmt)
    (pure (.ifStmt condition thenStmt))

def outputStmtRule : Rule StatementContext := do
  token .kOutput
  let arg ← exprRule n
  token .semi
  return .outputStmt arg

def errorStmtRule : Rule StatementContext := do
  token .kError
  let arg ← exprRule n
  token .semi
  return .errorStmt arg

end Statements

mutual

/-- The rule `statement`. -/
def statementRule : ℕ → Rule StatementContext
  | 0 => failure
  | n + 1 => blockStmtRule (statementsRule n) <|> assignStmtRule n <|> updateStmtRule n <|>
      whileStmtRule n (statementRule n) <|> forByStmtRule n (statementRule n) <|>
      forRangeStmtRule n (statementRule n) <|> forInStmtRule n (statementRule n) <|>
      ifStmtRule n (statementRule n) <|> outputStmtRule n <|> errorStmtRule n

/-- `statement*`. -/
def statementsRule : ℕ → Rule (List StatementContext)
  | 0 => failure
  | n + 1 => (do
      let s ← statementRule n
      let ss ← statementsRule n
      return s :: ss) <|> pure []

end

/-! ### Functions -/

/-- The formals of a function. -/
def formalsRule (n : ℕ) : Rule (List Identifier) :=
  (do
    let first ← nameRule
    let more ← moreNamesRule n
    return first :: more) <|> pure []

/-- `KPOLY?`. -/
def polyRule : Rule Bool :=
  ifNext .kPoly (pure true) (pure false)

/-- The rule `function`. -/
def functionRule (n : ℕ) : Rule FunctionContext := do
  let name ← nameRule
  token .lparen
  let formals ← formalsRule n
  token .rparen
  let poly ← polyRule
  token .lbrace
  let declarations ← many (declarationRule n) n
  let statements ← statementsRule n
  token .kReturn
  let returned ← exprRule n
  token .semi
  token .rbrace
  return { name, formals, poly, declarations, statements, returned }

/-- The generated method of the rule `function`, with enough fuel. -/
def parseFunction (ts : List Token) : Option (FunctionContext × List Token) :=
  (functionRule (5 * ts.length + 5) ts).head?

end Sipc
