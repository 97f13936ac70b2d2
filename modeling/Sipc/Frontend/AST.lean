import Mathlib.Data.List.Basic
import Mathlib.Data.List.Nodup

/-!
# The abstract syntax tree

The node classes of `frontend/ast/treetypes`. The compiler tells nodes apart by their address, and
several passes key their tables by it, so every node carries a `NodeId` that plays the part of the
address. The builder makes the `return` the last statement of every function and gives a `for` either
an iterator or a range, and the types below leave no other choice.

Every pass is a visitor: `accept` walks a node in source order, calling `visit` on the way down and
`endVisit` on the way up. Here `accept` is the list of those calls (`VisitEvent`), and a pass is a
function of one call, folded over the list.
-/

set_option autoImplicit false
set_option relaxedAutoImplicit false

namespace Sipc

/-- The address of an AST node. -/
abbrev NodeId := ℕ

/-- The operator strings that `ASTBuilder::opString` gives a binary expression. -/
inductive BinaryOp
  | add | sub | mul | div | mod
  | gt | ge | lt | le | eq | ne
  | and | or
  deriving DecidableEq, Repr

mutual

/-- `ASTExpr` and its subclasses. -/
inductive ASTExpr
  | numberExpr (node : NodeId) (val : Int32)
  | boolExpr (node : NodeId) (val : Bool)
  | inputExpr (node : NodeId)
  | nullExpr (node : NodeId)
  | variableExpr (node : NodeId) (name : String)
  | binaryExpr (node : NodeId) (op : BinaryOp) (left right : ASTExpr)
  | notExpr (node : NodeId) (arg : ASTExpr)
  | negExpr (node : NodeId) (arg : ASTExpr)
  | funAppExpr (node : NodeId) (function : ASTExpr) (actuals : List ASTExpr)
  | allocExpr (node : NodeId) (initializer : ASTExpr)
  | refExpr (node : NodeId) (var : ASTExpr)
  | deRefExpr (node : NodeId) (ptr : ASTExpr)
  | recordExpr (node : NodeId) (fields : List ASTFieldExpr)
  | accessExpr (node : NodeId) (record : ASTExpr) (field : String)
  | ternaryExpr (node : NodeId) (condition thenExpr elseExpr : ASTExpr)
  | arrayExpr (node : NodeId) (elements : List ASTExpr)
  | arrayOfExpr (node : NodeId) (e1 e2 : ASTExpr)
  | indexingExpr (node : NodeId) (arr idx : ASTExpr)
  | arrayLenExpr (node : NodeId) (ptr : ASTExpr)

/-- `ASTFieldExpr`: one `field : initializer` of a record literal. -/
inductive ASTFieldExpr
  | mk (node : NodeId) (field : String) (initializer : ASTExpr)

end

namespace ASTFieldExpr

def node : ASTFieldExpr → NodeId
  | .mk n _ _ => n

def field : ASTFieldExpr → String
  | .mk _ f _ => f

def initializer : ASTFieldExpr → ASTExpr
  | .mk _ _ e => e

@[simp] theorem node_mk (n : NodeId) (f : String) (e : ASTExpr) : (mk n f e).node = n := rfl
@[simp] theorem field_mk (n : NodeId) (f : String) (e : ASTExpr) : (mk n f e).field = f := rfl
@[simp] theorem initializer_mk (n : NodeId) (f : String) (e : ASTExpr) :
    (mk n f e).initializer = e := rfl

end ASTFieldExpr

/-- The address of an expression node. -/
def ASTExpr.node : ASTExpr → NodeId
  | .numberExpr n _ | .boolExpr n _ | .inputExpr n | .nullExpr n | .variableExpr n _
  | .binaryExpr n _ _ _ | .notExpr n _ | .negExpr n _ | .funAppExpr n _ _ | .allocExpr n _
  | .refExpr n _ | .deRefExpr n _ | .recordExpr n _ | .accessExpr n _ _ | .ternaryExpr n _ _ _
  | .arrayExpr n _ | .arrayOfExpr n _ _ | .indexingExpr n _ _ | .arrayLenExpr n _ => n

/-- What the item of a `for` runs over: the elements of an array, or the integers of a range with
an optional increment. -/
inductive ForDomain
  | iterator (iterator : ASTExpr)
  | range (rangeStart rangeEnd : ASTExpr) (increment : Option ASTExpr)

/-- `ASTStmt` and its subclasses that may occur inside a function body. -/
inductive ASTStmt
  | assignStmt (node : NodeId) (lhs rhs : ASTExpr)
  | updateStmt (node : NodeId) (arg : ASTExpr) (increment : Bool)
  | blockStmt (node : NodeId) (stmts : List ASTStmt)
  | whileStmt (node : NodeId) (condition : ASTExpr) (body : ASTStmt)
  | forStmt (node : NodeId) (item : ASTExpr) (domain : ForDomain) (body : ASTStmt)
  | ifStmt (node : NodeId) (condition : ASTExpr) (thenStmt : ASTStmt) (elseStmt : Option ASTStmt)
  | outputStmt (node : NodeId) (arg : ASTExpr)
  | errorStmt (node : NodeId) (arg : ASTExpr)

/-- `ASTDeclNode`: the declaration of a function name, a formal or a local. -/
structure ASTDeclNode where
  node : NodeId
  name : String
  deriving DecidableEq, Repr

/-- `ASTDeclStmt`: one `var` line. -/
structure ASTDeclStmt where
  node : NodeId
  vars : List ASTDeclNode

/-- `ASTReturnStmt`. -/
structure ASTReturnStmt where
  node : NodeId
  arg : ASTExpr

/-- `ASTFunction`. The last element of `getStmts` is the field `ret`. -/
structure ASTFunction where
  node : NodeId
  decl : ASTDeclNode
  formals : List ASTDeclNode
  declarations : List ASTDeclStmt
  body : List ASTStmt
  ret : ASTReturnStmt
  isPoly : Bool

/-- `ASTFunction::getName`. -/
def ASTFunction.name (f : ASTFunction) : String :=
  f.decl.name

/-- The declarations a function makes beside its own name: the formals, then the locals. -/
def ASTFunction.localDecls (f : ASTFunction) : List ASTDeclNode :=
  f.formals ++ f.declarations.flatMap ASTDeclStmt.vars

/-! ### The traversal every visitor makes -/

/-- A node as a visitor receives it. -/
inductive ASTNode
  | function (f : ASTFunction)
  | declNode (d : ASTDeclNode)
  | declStmt (s : ASTDeclStmt)
  | expr (e : ASTExpr)
  | fieldExpr (f : ASTFieldExpr)
  | stmt (s : ASTStmt)
  | returnStmt (s : ASTReturnStmt)

/-- The address of a node. -/
def ASTStmt.node : ASTStmt → NodeId
  | .assignStmt n _ _ | .updateStmt n _ _ | .blockStmt n _ | .whileStmt n _ _
  | .forStmt n _ _ _ | .ifStmt n _ _ _ | .outputStmt n _ | .errorStmt n _ => n

/-- The address of a node. -/
def ASTNode.node : ASTNode → NodeId
  | .function f => f.node
  | .declNode d => d.node
  | .declStmt s => s.node
  | .expr e => e.node
  | .fieldExpr f => f.node
  | .stmt s => s.node
  | .returnStmt s => s.node

/-- One call of a visitor: `visit` before the children of a node, `endVisit` after them. -/
inductive VisitEvent
  | visit (n : ASTNode)
  | endVisit (n : ASTNode)

/-- The calls made for a node whose children make the calls `inner`. -/
def visiting (n : ASTNode) (inner : List VisitEvent) : List VisitEvent :=
  .visit n :: inner ++ [.endVisit n]

mutual

/-- `ASTExpr::accept`. -/
def ASTExpr.accept : ASTExpr → List VisitEvent
  | e@(.numberExpr _ _) => visiting (.expr e) []
  | e@(.boolExpr _ _) => visiting (.expr e) []
  | e@(.inputExpr _) => visiting (.expr e) []
  | e@(.nullExpr _) => visiting (.expr e) []
  | e@(.variableExpr _ _) => visiting (.expr e) []
  | e@(.binaryExpr _ _ l r) => visiting (.expr e) (l.accept ++ r.accept)
  | e@(.notExpr _ a) => visiting (.expr e) a.accept
  | e@(.negExpr _ a) => visiting (.expr e) a.accept
  | e@(.funAppExpr _ f as) => visiting (.expr e) (f.accept ++ ASTExpr.acceptList as)
  | e@(.allocExpr _ a) => visiting (.expr e) a.accept
  | e@(.refExpr _ a) => visiting (.expr e) a.accept
  | e@(.deRefExpr _ a) => visiting (.expr e) a.accept
  | e@(.recordExpr _ fs) => visiting (.expr e) (ASTExpr.acceptFields fs)
  | e@(.accessExpr _ r _) => visiting (.expr e) r.accept
  | e@(.ternaryExpr _ c t f) => visiting (.expr e) (c.accept ++ t.accept ++ f.accept)
  | e@(.arrayExpr _ es) => visiting (.expr e) (ASTExpr.acceptList es)
  | e@(.arrayOfExpr _ a b) => visiting (.expr e) (a.accept ++ b.accept)
  | e@(.indexingExpr _ a i) => visiting (.expr e) (a.accept ++ i.accept)
  | e@(.arrayLenExpr _ a) => visiting (.expr e) a.accept

/-- `accept` on each expression of a list, in order. -/
def ASTExpr.acceptList : List ASTExpr → List VisitEvent
  | [] => []
  | e :: es => e.accept ++ ASTExpr.acceptList es

/-- `ASTFieldExpr::accept` on each field of a record literal, in order. -/
def ASTExpr.acceptFields : List ASTFieldExpr → List VisitEvent
  | [] => []
  | .mk n f e :: fs => visiting (.fieldExpr (.mk n f e)) e.accept ++ ASTExpr.acceptFields fs

end

/-- The calls for the domain of a `for`, in the order `ASTForStmt::accept` makes them. -/
def ForDomain.accept : ForDomain → List VisitEvent
  | .iterator e => e.accept
  | .range s e none => s.accept ++ e.accept
  | .range s e (some i) => s.accept ++ e.accept ++ i.accept

mutual

/-- `ASTStmt::accept`. -/
def ASTStmt.accept : ASTStmt → List VisitEvent
  | s@(.assignStmt _ l r) => visiting (.stmt s) (l.accept ++ r.accept)
  | s@(.updateStmt _ a _) => visiting (.stmt s) a.accept
  | s@(.blockStmt _ ss) => visiting (.stmt s) (ASTStmt.acceptList ss)
  | s@(.whileStmt _ c b) => visiting (.stmt s) (c.accept ++ b.accept)
  | s@(.forStmt _ i d b) => visiting (.stmt s) (i.accept ++ d.accept ++ b.accept)
  | s@(.ifStmt _ c t none) => visiting (.stmt s) (c.accept ++ t.accept)
  | s@(.ifStmt _ c t (some f)) => visiting (.stmt s) (c.accept ++ t.accept ++ f.accept)
  | s@(.outputStmt _ a) => visiting (.stmt s) a.accept
  | s@(.errorStmt _ a) => visiting (.stmt s) a.accept

/-- `accept` on each statement of a list, in order. -/
def ASTStmt.acceptList : List ASTStmt → List VisitEvent
  | [] => []
  | s :: ss => s.accept ++ ASTStmt.acceptList ss

end

/-- `ASTDeclNode::accept`. -/
def ASTDeclNode.accept (d : ASTDeclNode) : List VisitEvent :=
  visiting (.declNode d) []

/-- `ASTDeclStmt::accept`. -/
def ASTDeclStmt.accept (s : ASTDeclStmt) : List VisitEvent :=
  visiting (.declStmt s) (s.vars.flatMap ASTDeclNode.accept)

/-- `ASTReturnStmt::accept`. -/
def ASTReturnStmt.accept (s : ASTReturnStmt) : List VisitEvent :=
  visiting (.returnStmt s) s.arg.accept

/-- `ASTFunction::accept`. -/
def ASTFunction.accept (f : ASTFunction) : List VisitEvent :=
  visiting (.function f)
    (f.decl.accept ++ f.formals.flatMap ASTDeclNode.accept ++
      f.declarations.flatMap ASTDeclStmt.accept ++ ASTStmt.acceptList f.body ++ f.ret.accept)

/-- The addresses of the nodes visited, in the order of the `visit` calls. -/
def visitedNodes (events : List VisitEvent) : List NodeId :=
  events.filterMap fun
    | .visit n => some n.node
    | .endVisit _ => none

/-- `ASTProgram`. Distinct nodes are distinct objects, so their addresses differ. -/
structure ASTProgram where
  functions : List ASTFunction
  distinct : (visitedNodes (functions.flatMap ASTFunction.accept)).Nodup

/-- `ASTProgram::accept`. -/
def ASTProgram.accept (p : ASTProgram) : List VisitEvent :=
  p.functions.flatMap ASTFunction.accept

/-- `ASTProgram::findFunctionByName`. -/
def ASTProgram.findFunctionByName (p : ASTProgram) (name : String) : Option ASTFunction :=
  p.functions.find? fun f ↦ f.name = name

end Sipc
