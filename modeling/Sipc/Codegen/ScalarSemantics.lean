import Sipc.Frontend.AST
import Sipc.Codegen.IR

/-!
# The meaning of the scalar core

A direct evaluation of the tree. A variable holds a word of 64 bits, `true` is 1 and `false` is 0,
local variables start at 0, and arithmetic wraps around. `and`, `or`, `not` and conditions are
logical: they ask whether a word is 0. A division by zero and an overflowing division are undefined.

A loop runs at most the given number of times before the evaluation is cut off, and its output so far
is kept. The types of the scalar core say which operands are ints and which bools (`HasType`,
`WellTyped`).
-/

set_option autoImplicit false
set_option relaxedAutoImplicit false

namespace Sipc

open Machine (Evaluation)

/-! ### Types -/

inductive ScalarType
  | int
  | bool
  deriving DecidableEq, Repr

/-- The types of the parameters and local variables of a function. -/
abbrev TypeContext := String → Option ScalarType

/-- The operator takes two operands of type `operand` to a value of type `result`. -/
def BinaryOp.HasType : BinaryOp → ScalarType → ScalarType → Prop
  | .add, operand, result | .sub, operand, result | .mul, operand, result
  | .div, operand, result | .mod, operand, result => operand = .int ∧ result = .int
  | .gt, operand, result | .ge, operand, result | .lt, operand, result
  | .le, operand, result => operand = .int ∧ result = .bool
  | .eq, _, result | .ne, _, result => result = .bool
  | .and, operand, result | .or, operand, result => operand = .bool ∧ result = .bool

/-- The expression belongs to the scalar core and has the type. -/
def ASTExpr.HasType (Γ : TypeContext) : ASTExpr → ScalarType → Prop
  | .numberExpr _ _, τ => τ = .int
  | .boolExpr _ _, τ => τ = .bool
  | .variableExpr _ name, τ => Γ name = some τ
  | .binaryExpr _ op left right, τ => ∃ σ, op.HasType σ τ ∧ left.HasType Γ σ ∧ right.HasType Γ σ
  | .notExpr _ arg, τ => τ = .bool ∧ arg.HasType Γ .bool
  | .negExpr _ arg, τ => τ = .int ∧ arg.HasType Γ .int
  | .ternaryExpr _ condition thenExpr elseExpr, τ =>
    condition.HasType Γ .bool ∧ thenExpr.HasType Γ τ ∧ elseExpr.HasType Γ τ
  | _, _ => False

/-- The expression is a variable of the type. -/
def ASTExpr.IsVariable (Γ : TypeContext) (τ : ScalarType) : ASTExpr → Prop
  | .variableExpr _ name => Γ name = some τ
  | _ => False

mutual

/-- The statement belongs to the scalar core and is well typed. -/
def ASTStmt.WellTyped (Γ : TypeContext) : ASTStmt → Prop
  | .assignStmt _ lhs rhs => ∃ τ, lhs.IsVariable Γ τ ∧ rhs.HasType Γ τ
  | .updateStmt _ arg _ => arg.IsVariable Γ .int
  | .blockStmt _ stmts => ASTStmt.WellTypedList Γ stmts
  | .whileStmt _ condition body => condition.HasType Γ .bool ∧ body.WellTyped Γ
  | .ifStmt _ condition thenStmt none => condition.HasType Γ .bool ∧ thenStmt.WellTyped Γ
  | .ifStmt _ condition thenStmt (some elseStmt) =>
    condition.HasType Γ .bool ∧ thenStmt.WellTyped Γ ∧ elseStmt.WellTyped Γ
  | .outputStmt _ arg => ∃ τ, arg.HasType Γ τ
  | .forStmt _ _ _ _ | .errorStmt _ _ => False

/-- Every statement of the list is well typed. -/
def ASTStmt.WellTypedList (Γ : TypeContext) : List ASTStmt → Prop
  | [] => True
  | s :: stmts => s.WellTyped Γ ∧ ASTStmt.WellTypedList Γ stmts

end

/-- A function of the scalar core: its names are distinct and have the types of `Γ`, every `var` line
declares a variable, and its statements are well typed. -/
structure ASTFunction.WellTyped (Γ : TypeContext) (f : ASTFunction) : Prop where
  nodup : (f.localDecls.map ASTDeclNode.name).Nodup
  declared : ∀ x, (Γ x).isSome ↔ x ∈ f.localDecls.map ASTDeclNode.name
  vars_ne_nil : ∀ s ∈ f.declarations, s.vars ≠ []
  body : ASTStmt.WellTypedList Γ f.body
  ret : ∃ τ, f.ret.arg.HasType Γ τ

/-! ### Evaluation -/

/-- The word of a truth value. -/
def ofBool (b : Bool) : Word :=
  if b then 1 else 0

/-- A bool is 0 or 1. -/
def ScalarType.Holds (τ : ScalarType) (w : Word) : Prop :=
  τ = .bool → w = 0 ∨ w = 1

theorem ScalarType.holds_ofBool (τ : ScalarType) (b : Bool) : τ.Holds (ofBool b) := by
  intro _
  cases b
  · exact .inl rfl
  · exact .inr rfl

/-- A valuation of the variables. -/
abbrev Valuation := String → Word

def BinaryOp.eval : BinaryOp → Word → Word → Option Word
  | .add, l, r => some (l + r)
  | .sub, l, r => some (l - r)
  | .mul, l, r => some (l * r)
  | .div, l, r => if r = 0 ∨ (l = BitVec.intMin 64 ∧ r = -1) then none else some (l.sdiv r)
  | .mod, l, r => if r = 0 ∨ (l = BitVec.intMin 64 ∧ r = -1) then none else some (l.srem r)
  | .gt, l, r => some (ofBool (decide (l.toInt > r.toInt)))
  | .ge, l, r => some (ofBool (decide (l.toInt ≥ r.toInt)))
  | .lt, l, r => some (ofBool (decide (l.toInt < r.toInt)))
  | .le, l, r => some (ofBool (decide (l.toInt ≤ r.toInt)))
  | .eq, l, r => some (ofBool (decide (l = r)))
  | .ne, l, r => some (ofBool (decide (l ≠ r)))
  | .and, l, r => some (ofBool (decide (l ≠ 0) && decide (r ≠ 0)))
  | .or, l, r => some (ofBool (decide (l ≠ 0) || decide (r ≠ 0)))

/-- The value of an expression, `none` where a division is undefined. -/
def ASTExpr.eval (env : Valuation) : ASTExpr → Option Word
  | .numberExpr _ val => some (BitVec.ofInt 64 val.toInt)
  | .boolExpr _ val => some (ofBool val)
  | .variableExpr _ name => some (env name)
  | .binaryExpr _ op left right => do
    let l ← left.eval env
    let r ← right.eval env
    op.eval l r
  | .notExpr _ arg => do
    let a ← arg.eval env
    return ofBool (decide (a = 0))
  | .negExpr _ arg => do
    let a ← arg.eval env
    return -a
  | .ternaryExpr _ condition thenExpr elseExpr => do
    let c ← condition.eval env
    if c ≠ 0 then thenExpr.eval env else elseExpr.eval env
  | _ => none

/-- The variables, and what was output. -/
structure ScalarState where
  env : Valuation
  out : List Word

/-- Assigns a variable. -/
def ScalarState.assign (s : ScalarState) (name : String) (w : Word) : ScalarState :=
  { s with env := Function.update s.env name w }

/-- What a statement comes to: it is done, undefined, or cut off with the output so far. -/
inductive ScalarResult
  | done (s : ScalarState)
  | undefined
  | cutOff (out : List Word)

/-- Goes on with `f` where the first statement is done. -/
def ScalarResult.andThen : ScalarResult → (ScalarState → ScalarResult) → ScalarResult
  | .done s, f => f s
  | .undefined, _ => .undefined
  | .cutOff out, _ => .cutOff out

/-- Goes on with the value of an expression. -/
def ScalarResult.withValue (v : Option Word) (f : Word → ScalarResult) : ScalarResult :=
  match v with
  | some w => f w
  | none => .undefined

/-- At most `n` rounds of a loop. -/
def whileLoop (condition : ScalarState → Option Word) (body : ScalarState → ScalarResult) :
    ℕ → ScalarState → ScalarResult
  | 0, s => .cutOff s.out
  | n + 1, s => .withValue (condition s) fun c ↦
    if c ≠ 0 then (body s).andThen (whileLoop condition body n) else .done s

mutual

/-- Executes a statement, with at most `n` rounds for each run of a loop. -/
def ASTStmt.exec (n : ℕ) : ASTStmt → ScalarState → ScalarResult
  | .assignStmt _ (.variableExpr _ name) rhs, s =>
    .withValue (rhs.eval s.env) fun w ↦ .done (s.assign name w)
  | .updateStmt _ (.variableExpr _ name) increment, s =>
    .done (s.assign name (if increment then s.env name + 1 else s.env name - 1))
  | .blockStmt _ stmts, s => ASTStmt.execList n stmts s
  | .whileStmt _ condition body, s => whileLoop (fun s ↦ condition.eval s.env) (body.exec n) n s
  | .ifStmt _ condition thenStmt none, s => .withValue (condition.eval s.env) fun c ↦
    if c ≠ 0 then thenStmt.exec n s else .done s
  | .ifStmt _ condition thenStmt (some elseStmt), s => .withValue (condition.eval s.env) fun c ↦
    if c ≠ 0 then thenStmt.exec n s else elseStmt.exec n s
  | .outputStmt _ arg, s => .withValue (arg.eval s.env) fun w ↦
    .done { s with out := s.out ++ [w] }
  | _, _ => .undefined

/-- Executes a list of statements, in order. -/
def ASTStmt.execList (n : ℕ) : List ASTStmt → ScalarState → ScalarResult
  | [], s => .done s
  | stmt :: stmts, s => (stmt.exec n s).andThen (ASTStmt.execList n stmts)

end

/-- The valuation a call starts in: the formals hold the actuals, and every other variable 0. -/
def ASTFunction.initialValuation (f : ASTFunction) (actuals : List Word) : Valuation :=
  fun x ↦ (((f.formals.map ASTDeclNode.name).zip actuals).lookup x).getD 0

/-- The actuals are as many as the formals and have their types. -/
structure ASTFunction.Accepts (Γ : TypeContext) (f : ASTFunction) (actuals : List Word) : Prop where
  length_eq : actuals.length = f.formals.length
  holds : ∀ (i : ℕ) (d : ASTDeclNode) (w : Word) (τ : ScalarType), f.formals[i]? = some d →
    actuals[i]? = some w → Γ d.name = some τ → τ.Holds w

/-- A call of the function, with at most `n` rounds for each run of a loop; `none` where it is
undefined. -/
def ASTFunction.evaluate (f : ASTFunction) (actuals : List Word) (n : ℕ) :
    Option (Evaluation Word Word) :=
  match ASTStmt.execList n f.body ⟨f.initialValuation actuals, []⟩ with
  | .done s => (f.ret.arg.eval s.env).map (.finished s.out)
  | .undefined => none
  | .cutOff out => some (.cutOff out)

end Sipc
