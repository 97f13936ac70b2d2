import Sipc.Frontend.ParseTree

/-!
# Parsing expressions

The rule `expr` of `tipg4/TIP.g4` after ANTLR's elimination of left recursion: alternative `i` of 26 has
the level `27 - i`, `expr[p]` is a primary or a prefix operator followed by a loop over suffixes and
operators whose level is at least `p`. A prefix operator parses its operand at its own level, a binary
one its right operand one level higher, and operands between brackets or between `?` and `:` are at
level 0. The loop goes on as long as it can. Every other decision looks at the tokens ahead.
-/

set_option autoImplicit false
set_option relaxedAutoImplicit false

namespace Sipc

/-- The binary alternative of an operator, and its level. -/
def binaryContext (op : Token) : Option (ℕ × (ExprContext → ExprContext → ExprContext)) :=
  if h : op ∈ [.mul, .div, .mod] then some (17, .multiplicativeExpr ⟨op, h⟩)
  else if h : op ∈ [.add, .sub] then some (16, .additiveExpr ⟨op, h⟩)
  else if h : op ∈ [.gt, .lte, .gte, .lt] then some (15, .relationalExpr ⟨op, h⟩)
  else if h : op ∈ [.eq, .ne] then some (14, .equalityExpr ⟨op, h⟩)
  else if h : op ∈ [.lor, .land] then some (3, .nonShortCircuiting ⟨op, h⟩)
  else if h : op ∈ [.kAnd, .kOr] then some (2, .boolOps ⟨op, h⟩)
  else none

/-- The level of the alternative that the token continues an expression with. -/
def Token.loopLevel : Token → Option ℕ
  | .lparen => some 26
  | .dot => some 25
  | .lbracket => some 23
  | .question => some 13
  | op => (binaryContext op).map Prod.fst

/-- The prefix alternative of a token, and its level. -/
def prefixContext : Token → Option (ℕ × (ExprContext → ExprContext))
  | .mul => some (24, .deRefExpr)
  | .sub => some (21, .negExpr)
  | .land => some (20, .refExpr)
  | .hash => some (19, .arrayLenExpr)
  | .kNot => some (18, .notExpr)
  | .kAlloc => some (9, .allocExpr)
  | _ => none

/-- The alternative of a token that is an expression by itself. -/
def leafContext : Token → Option ExprContext
  | .identifier x => some (.varExpr x)
  | .number n => some (.numExpr n)
  | .kInput => some .inputExpr
  | .kNull => some .nullExpr
  | .kTrue => some (.boolExpr ⟨.kTrue, by simp⟩)
  | .kFalse => some (.boolExpr ⟨.kFalse, by simp⟩)
  | _ => none

/-- Goes on after the token. -/
def matchToken (t : Token) : List Token → Option (List Token)
  | [] => none
  | t' :: ts => if t' = t then some ts else none

/-- The level of the alternative that the next token continues an expression with. -/
def nextLevel (ts : List Token) : Option ℕ :=
  ts.head?.bind Token.loopLevel

mutual

/-- `expr[p]`. -/
def parseExpr : ℕ → ℕ → List Token → Option (ExprContext × List Token)
  | 0, _, _ => none
  | n + 1, p, ts => do
    let (t, ts) ← parsePrimary n ts
    parseSuffixes n p t ts

/-- The alternatives that do not begin with an expression. -/
def parsePrimary : ℕ → List Token → Option (ExprContext × List Token)
  | 0, _ => none
  | _ + 1, .sub :: .number x :: ts => return (.negNumber x, ts)
  | n + 1, .lparen :: ts => do
    let (e, ts) ← parseExpr n 0 ts
    let ts ← matchToken .rparen ts
    return (.parenExpr e, ts)
  | _ + 1, .lbrace :: .rbrace :: ts => return (.recordRule [], ts)
  | n + 1, .lbrace :: ts => do
    let (fs, ts) ← parseFields n ts
    let ts ← matchToken .rbrace ts
    return (.recordRule fs, ts)
  | _ + 1, .lbracket :: .rbracket :: ts => return (.arrayLiteral [], ts)
  | n + 1, .lbracket :: ts => do
    let (es, ts) ← parseExprs n ts
    parseArray n es ts
  | n + 1, ts => parseOperator n ts

/-- A prefix operator and its operand, or an expression of one token. -/
def parseOperator : ℕ → List Token → Option (ExprContext × List Token)
  | n + 1, op :: ts =>
    match prefixContext op with
    | some (q, mk) => do
      let (e, ts) ← parseExpr n q ts
      return (mk e, ts)
    | none => do
      let e ← leafContext op
      return (e, ts)
  | _, _ => none

/-- The rest of `[E1 of E2]` after `[E1`, or of an array literal. -/
def parseArray : ℕ → List ExprContext → List Token → Option (ExprContext × List Token)
  | 0, _, _ => none
  | n + 1, [e1], .kOf :: ts => do
    let (e2, ts) ← parseExpr n 0 ts
    let ts ← matchToken .rbracket ts
    return (.arrayOfExpr e1 e2, ts)
  | _ + 1, es, ts => do
    let ts ← matchToken .rbracket ts
    return (.arrayLiteral es, ts)

/-- The loop after the expression `t` at level `p`. -/
def parseSuffixes : ℕ → ℕ → ExprContext → List Token → Option (ExprContext × List Token)
  | 0, _, _, _ => none
  | n + 1, p, t, ts =>
    match nextLevel ts with
    | none => return (t, ts)
    | some k =>
      if k < p then return (t, ts)
      else do
        let (t, ts) ← parseSuffix n t ts
        parseSuffixes n p t ts

/-- One round of the loop. -/
def parseSuffix : ℕ → ExprContext → List Token → Option (ExprContext × List Token)
  | 0, _, _ => none
  | _ + 1, t, .lparen :: .rparen :: ts => return (.funAppExpr t [], ts)
  | n + 1, t, .lparen :: ts => do
    let (es, ts) ← parseExprs n ts
    let ts ← matchToken .rparen ts
    return (.funAppExpr t es, ts)
  | _ + 1, t, .dot :: .identifier x :: ts => return (.accessExpr t x, ts)
  | n + 1, t, .lbracket :: ts => do
    let (e, ts) ← parseExpr n 0 ts
    let ts ← matchToken .rbracket ts
    return (.arrayIndexingExpr t e, ts)
  | n + 1, t, .question :: ts => do
    let (e, ts) ← parseExpr n 0 ts
    let ts ← matchToken .colon ts
    let (f, ts) ← parseExpr n 14 ts
    return (.ternaryExpr t e f, ts)
  | n + 1, t, op :: ts => do
    let (k, mk) ← binaryContext op
    let (r, ts) ← parseExpr n (k + 1) ts
    return (mk t r, ts)
  | _ + 1, _, [] => none

/-- Expressions with commas between them. -/
def parseExprs : ℕ → List Token → Option (List ExprContext × List Token)
  | 0, _ => none
  | n + 1, ts => do
    let (e, ts) ← parseExpr n 0 ts
    match ts with
    | .comma :: ts => do
      let (es, ts) ← parseExprs n ts
      return (e :: es, ts)
    | ts => return ([e], ts)

/-- The fields of a record, with commas between them. -/
def parseFields : ℕ → List Token → Option (List FieldExprContext × List Token)
  | n + 1, .identifier x :: .colon :: ts => do
    let (e, ts) ← parseExpr n 0 ts
    match ts with
    | .comma :: ts => do
      let (fs, ts) ← parseFields n ts
      return (.mk x e :: fs, ts)
    | ts => return ([.mk x e], ts)
  | _, _ => none

end

/-- Nothing is read without fuel. -/
example (p : ℕ) (t : ExprContext) (es : List ExprContext) (ts : List Token) :
    parseExpr 0 p ts = none ∧ parsePrimary 0 ts = none ∧ parseArray 0 es ts = none ∧
      parseSuffixes 0 p t ts = none ∧ parseSuffix 0 t ts = none ∧ parseExprs 0 ts = none ∧
      parseFields 0 ts = none := by
  rw [parseExpr, parsePrimary, parseArray, parseSuffixes, parseSuffix, parseExprs, parseFields]
  · exact ⟨rfl, rfl, rfl, rfl, rfl, rfl, rfl⟩
  all_goals intros
  all_goals contradiction

end Sipc
