import Sipc.Semantic.SymbolTable

/-!
# Assignability

`semantic/weeding/CheckAssignable`: the left-hand sides of assignments, the arguments of updates and
of `&`, and the items of loops must have an l-value.
-/

set_option autoImplicit false
set_option relaxedAutoImplicit false

namespace Sipc

/-- `isAssignable`. -/
def isAssignable : ASTExpr → Bool
  | .variableExpr _ _ => true
  | .accessExpr _ (.variableExpr _ _) _ | .accessExpr _ (.deRefExpr _ _) _ => true
  | .indexingExpr _ (.variableExpr _ _) _ | .indexingExpr _ (.deRefExpr _ _) _ => true
  | _ => false

/-- A statement may also store through a pointer. -/
def isAssignableOrDeRef : ASTExpr → Bool
  | .deRefExpr _ _ => true
  | e => isAssignable e

namespace CheckAssignable

/-- `CheckAssignable::endVisit`. -/
def endVisit : ASTNode → Except SemanticError Unit
  | .stmt (.assignStmt _ lhs _) =>
    if isAssignableOrDeRef lhs then .ok () else .error (.assignment lhs.node)
  | .expr (.refExpr _ var) => if isAssignable var then .ok () else .error (.addressOf var.node)
  | .stmt (.updateStmt _ arg _) =>
    if isAssignableOrDeRef arg then .ok () else .error (.update arg.node)
  | .stmt (.forStmt _ item _ _) =>
    if isAssignableOrDeRef item then .ok () else .error (.update item.node)
  | _ => .ok ()

/-- One call of the visitor. -/
def step : VisitEvent → Except SemanticError Unit
  | .endVisit n => endVisit n
  | .visit _ => .ok ()

/-- `CheckAssignable::check`. -/
def check (p : ASTProgram) : Except SemanticError Unit :=
  p.accept.forM step

theorem endVisit_of_check {p : ASTProgram} (h : check p = .ok ()) {n : ASTNode}
    (hn : .endVisit n ∈ p.accept) : endVisit n = .ok () := by
  unfold check at h
  generalize p.accept = es at h hn
  induction es with
  | nil => cases hn
  | cons e es ih =>
    change (step e >>= fun _ ↦ es.forM step) = .ok () at h
    obtain ⟨⟨⟩, hstep, hrest⟩ := Except.bind_eq_ok.1 h
    rcases List.mem_cons.1 hn with rfl | hn
    · exact hstep
    · exact ih hrest hn

end CheckAssignable

end Sipc
