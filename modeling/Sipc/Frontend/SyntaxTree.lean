import Sipc.Frontend.Traversal
import Sipc.Library.PreOrder

/-!
# Children and iterators

`getChildren` of a node lists what `accept` of the node visits below it, in the same order
(`ASTNode.accept_eq`, `ASTProgram.accept_eq`). The iterator of `frontend/iterators` walks a tree by
`getChildren`, with a stack.
-/

set_option autoImplicit false
set_option relaxedAutoImplicit false

namespace Sipc

open Library

/-! ### Children -/

/-- `getChildren` of the expressions. -/
def ASTExpr.getChildren : ASTExpr → List ASTNode
  | .numberExpr _ _ | .boolExpr _ _ | .inputExpr _ | .nullExpr _ | .variableExpr _ _ => []
  | .binaryExpr _ _ left right => [.expr left, .expr right]
  | .notExpr _ arg | .negExpr _ arg => [.expr arg]
  | .funAppExpr _ function actuals => .expr function :: actuals.map .expr
  | .allocExpr _ init => [.expr init]
  | .refExpr _ var => [.expr var]
  | .deRefExpr _ ptr => [.expr ptr]
  | .recordExpr _ fields => fields.map .fieldExpr
  | .accessExpr _ record _ => [.expr record]
  | .ternaryExpr _ condition thenExpr elseExpr =>
    [.expr condition, .expr thenExpr, .expr elseExpr]
  | .arrayExpr _ elements => elements.map .expr
  | .arrayOfExpr _ e1 e2 => [.expr e1, .expr e2]
  | .indexingExpr _ arr idx => [.expr arr, .expr idx]
  | .arrayLenExpr _ ptr => [.expr ptr]

/-- The iterator, or the bounds of the range and the increment if there is one. -/
def ForDomain.getChildren : ForDomain → List ASTNode
  | .iterator e => [.expr e]
  | .range rangeStart rangeEnd none => [.expr rangeStart, .expr rangeEnd]
  | .range rangeStart rangeEnd (some increment) =>
    [.expr rangeStart, .expr rangeEnd, .expr increment]

/-- `getChildren` of the statements. -/
def ASTStmt.getChildren : ASTStmt → List ASTNode
  | .assignStmt _ lhs rhs => [.expr lhs, .expr rhs]
  | .updateStmt _ arg _ => [.expr arg]
  | .blockStmt _ stmts => stmts.map .stmt
  | .whileStmt _ condition body => [.expr condition, .stmt body]
  | .forStmt _ item domain body => .expr item :: (domain.getChildren ++ [.stmt body])
  | .ifStmt _ condition thenStmt none => [.expr condition, .stmt thenStmt]
  | .ifStmt _ condition thenStmt (some elseStmt) =>
    [.expr condition, .stmt thenStmt, .stmt elseStmt]
  | .outputStmt _ arg | .errorStmt _ arg => [.expr arg]

/-- `ASTNode::getChildren`. The return statement is the last of `BODY`. -/
def ASTNode.getChildren : ASTNode → List ASTNode
  | .function f =>
    .declNode f.decl :: (f.formals.map .declNode ++ f.declarations.map .declStmt ++
      f.body.map .stmt ++ [.returnStmt f.ret])
  | .declNode _ => []
  | .declStmt s => s.vars.map .declNode
  | .expr e => e.getChildren
  | .fieldExpr f => [.expr f.initializer]
  | .stmt s => s.getChildren
  | .returnStmt s => [.expr s.arg]

/-- `ASTNode::accept`. -/
def ASTNode.accept : ASTNode → List VisitEvent
  | .function f => f.accept
  | .declNode d => d.accept
  | .declStmt s => s.accept
  | .expr e => e.accept
  | .fieldExpr f => visiting (.fieldExpr f) f.initializer.accept
  | .stmt s => s.accept
  | .returnStmt s => s.accept

theorem flatMap_map_accept {α : Type} {node : α → ASTNode} {accept : α → List VisitEvent}
    (h : ∀ a, (node a).accept = accept a) (as : List α) :
    (as.map node).flatMap ASTNode.accept = as.flatMap accept := by
  rw [List.flatMap_map]
  exact List.flatMap_congr fun a _ ↦ h a

theorem ASTExpr.acceptList_eq (es : List ASTExpr) :
    ASTExpr.acceptList es = (es.map ASTNode.expr).flatMap ASTNode.accept := by
  induction es with
  | nil => rfl
  | cons e es ih => exact congrArg (e.accept ++ ·) ih

theorem ASTExpr.acceptFields_eq (fs : List ASTFieldExpr) :
    ASTExpr.acceptFields fs = (fs.map ASTNode.fieldExpr).flatMap ASTNode.accept := by
  induction fs with
  | nil => rfl
  | cons f fs ih =>
    obtain ⟨n, field, e⟩ := f
    exact congrArg (visiting (.fieldExpr (.mk n field e)) e.accept ++ ·) ih

theorem ASTStmt.acceptList_eq (ss : List ASTStmt) :
    ASTStmt.acceptList ss = (ss.map ASTNode.stmt).flatMap ASTNode.accept := by
  induction ss with
  | nil => rfl
  | cons s ss ih => exact congrArg (s.accept ++ ·) ih

theorem flatMap_accept_singleton (n : ASTNode) : [n].flatMap ASTNode.accept = n.accept :=
  List.flatMap_singleton ASTNode.accept n

theorem flatMap_accept_pair (m n : ASTNode) :
    [m, n].flatMap ASTNode.accept = m.accept ++ n.accept := by
  rw [List.flatMap_cons, flatMap_accept_singleton]

theorem flatMap_accept_triple (l m n : ASTNode) :
    [l, m, n].flatMap ASTNode.accept = l.accept ++ m.accept ++ n.accept := by
  rw [List.flatMap_cons, flatMap_accept_pair, List.append_assoc]

theorem ASTExpr.accept_eq (e : ASTExpr) :
    e.accept = visiting (.expr e) (e.getChildren.flatMap ASTNode.accept) := by
  cases e with
  | numberExpr _ _ | boolExpr _ _ | inputExpr _ | nullExpr _ | variableExpr _ _ => rfl
  | notExpr _ a | negExpr _ a | allocExpr _ a | refExpr _ a | deRefExpr _ a | accessExpr _ a _
  | arrayLenExpr _ a => exact congrArg (visiting _) (flatMap_accept_singleton (.expr a)).symm
  | binaryExpr _ _ l r | arrayOfExpr _ l r | indexingExpr _ l r =>
    exact congrArg (visiting _) (flatMap_accept_pair (.expr l) (.expr r)).symm
  | ternaryExpr _ c t f =>
    exact congrArg (visiting _) (flatMap_accept_triple (.expr c) (.expr t) (.expr f)).symm
  | funAppExpr _ f as =>
    exact congrArg (fun l ↦ visiting _ (f.accept ++ l)) (ASTExpr.acceptList_eq as)
  | recordExpr _ fs => exact congrArg (visiting _) (ASTExpr.acceptFields_eq fs)
  | arrayExpr _ es => exact congrArg (visiting _) (ASTExpr.acceptList_eq es)

theorem ForDomain.accept_eq (d : ForDomain) :
    d.accept = d.getChildren.flatMap ASTNode.accept := by
  cases d with
  | iterator e => exact (flatMap_accept_singleton (.expr e)).symm
  | range s e i =>
    cases i with
    | none => exact (flatMap_accept_pair (.expr s) (.expr e)).symm
    | some i => exact (flatMap_accept_triple (.expr s) (.expr e) (.expr i)).symm

theorem ASTStmt.accept_eq (s : ASTStmt) :
    s.accept = visiting (.stmt s) (s.getChildren.flatMap ASTNode.accept) := by
  cases s with
  | assignStmt _ l r => exact congrArg (visiting _) (flatMap_accept_pair (.expr l) (.expr r)).symm
  | whileStmt _ c b => exact congrArg (visiting _) (flatMap_accept_pair (.expr c) (.stmt b)).symm
  | updateStmt _ a _ | outputStmt _ a | errorStmt _ a =>
    exact congrArg (visiting _) (flatMap_accept_singleton (.expr a)).symm
  | blockStmt _ ss => exact congrArg (visiting _) (ASTStmt.acceptList_eq ss)
  | forStmt _ item d body =>
    have h : item.accept ++ d.accept ++ body.accept =
        (ASTNode.expr item :: (d.getChildren ++ [.stmt body])).flatMap ASTNode.accept := by
      rw [List.flatMap_cons, List.flatMap_append, flatMap_accept_singleton, ← d.accept_eq,
        List.append_assoc]
      rfl
    exact congrArg (visiting _) h
  | ifStmt _ c t f =>
    cases f with
    | none => exact congrArg (visiting _) (flatMap_accept_pair (.expr c) (.stmt t)).symm
    | some f =>
      exact congrArg (visiting _) (flatMap_accept_triple (.expr c) (.stmt t) (.stmt f)).symm

/-- `accept` visits the node, then its children in the order of `getChildren`. -/
theorem ASTNode.accept_eq (n : ASTNode) :
    n.accept = visiting n (n.getChildren.flatMap ASTNode.accept) := by
  cases n with
  | function f =>
    have h : f.decl.accept ++ f.formals.flatMap ASTDeclNode.accept ++
        f.declarations.flatMap ASTDeclStmt.accept ++ ASTStmt.acceptList f.body ++ f.ret.accept =
          (ASTNode.function f).getChildren.flatMap ASTNode.accept := by
      rw [ASTNode.getChildren, List.flatMap_cons, List.flatMap_append, List.flatMap_append,
        List.flatMap_append, flatMap_map_accept (fun _ ↦ rfl), flatMap_map_accept (fun _ ↦ rfl),
        ← ASTStmt.acceptList_eq, flatMap_accept_singleton]
      simp only [List.append_assoc]
      rfl
    exact congrArg (visiting _) h
  | declNode d => rfl
  | declStmt s =>
    have h : (s.vars.map ASTNode.declNode).flatMap ASTNode.accept =
        s.vars.flatMap ASTDeclNode.accept := flatMap_map_accept (fun _ ↦ rfl) s.vars
    exact congrArg (visiting _) h.symm
  | expr e => exact e.accept_eq
  | fieldExpr f =>
    exact congrArg (visiting _) (flatMap_accept_singleton (.expr f.initializer)).symm
  | stmt s => exact s.accept_eq
  | returnStmt s => exact congrArg (visiting _) (flatMap_accept_singleton (.expr s.arg)).symm

/-- The nodes that are visited, in the order of the `visit` calls. -/
def visits (events : List VisitEvent) : List ASTNode :=
  events.filterMap fun
    | .visit n => some n
    | .endVisit _ => none

theorem visits_append (es es' : List VisitEvent) : visits (es ++ es') = visits es ++ visits es' :=
  List.filterMap_append

theorem visits_visiting (n : ASTNode) (inner : List VisitEvent) :
    visits (visiting n inner) = n :: visits inner := by
  rw [visiting, visits_append, visits, List.filterMap_cons, visits]
  exact List.append_nil _

theorem visits_flatMap {α : Type} (f : α → List VisitEvent) (as : List α) :
    visits (as.flatMap f) = as.flatMap fun a ↦ visits (f a) :=
  List.filterMap_flatMap

theorem mem_visits {events : List VisitEvent} {n : ASTNode} :
    n ∈ visits events ↔ .visit n ∈ events := by
  rw [visits, List.mem_filterMap]
  constructor
  · rintro ⟨ev, hev, heq⟩
    cases ev with
    | visit m => cases heq; exact hev
    | endVisit m => cases heq
  · exact fun h ↦ ⟨_, h, rfl⟩

/-- `accept` visits in pre-order. -/
theorem ASTNode.isPreOrder_visits :
    IsPreOrder ASTNode.getChildren fun n ↦ visits n.accept := by
  intro n
  change visits n.accept = _
  rw [n.accept_eq, visits_visiting, visits_flatMap]

/-- What holds of a node if it holds of its children, holds of every node. -/
theorem ASTNode.induction_children {P : ASTNode → Prop}
    (step : ∀ n : ASTNode, (∀ c ∈ n.getChildren, P c) → P n) (n : ASTNode) : P n :=
  ASTNode.isPreOrder_visits.induction step n

/-- The calls for a node that is visited are among the calls. -/
theorem ASTNode.accept_subset (n : ASTNode) {m : ASTNode} :
    .visit m ∈ n.accept → m.accept ⊆ n.accept := by
  refine ASTNode.induction_children (P := fun n ↦ .visit m ∈ n.accept → m.accept ⊆ n.accept)
    (fun n ih hm ↦ ?_) n
  have hmem := mem_visits.2 hm
  rw [n.accept_eq, visits_visiting, visits_flatMap] at hmem
  rcases List.mem_cons.1 hmem with rfl | hmem
  · exact List.Subset.refl _
  · obtain ⟨c, hc, hmc⟩ := List.mem_flatMap.1 hmem
    refine List.Subset.trans (ih c hc (mem_visits.1 hmc)) fun ev hev ↦ ?_
    rw [n.accept_eq, visiting]
    exact List.mem_append_left _ (List.mem_cons_of_mem _ (List.mem_flatMap.2 ⟨c, hc, hev⟩))

/-- The calls for a node of a program are among the calls for the program. -/
theorem ASTProgram.accept_subset {p : ASTProgram} {n : ASTNode} (h : .visit n ∈ p.accept) :
    n.accept ⊆ p.accept := by
  obtain ⟨f, hf, hn⟩ := List.mem_flatMap.1 h
  exact List.Subset.trans (ASTNode.accept_subset (.function f) hn) fun ev hev ↦
    p.mem_accept hf hev

/-! ### Expressions below expressions -/

/-- The expressions directly below an expression, in order. -/
def ASTExpr.subExprs : ASTExpr → List ASTExpr
  | .numberExpr _ _ | .boolExpr _ _ | .inputExpr _ | .nullExpr _ | .variableExpr _ _ => []
  | .notExpr _ a | .negExpr _ a | .allocExpr _ a | .refExpr _ a | .deRefExpr _ a
  | .accessExpr _ a _ | .arrayLenExpr _ a => [a]
  | .binaryExpr _ _ l r | .arrayOfExpr _ l r | .indexingExpr _ l r => [l, r]
  | .funAppExpr _ f as => f :: as
  | .recordExpr _ fs => fs.map ASTFieldExpr.initializer
  | .ternaryExpr _ c t f => [c, t, f]
  | .arrayExpr _ es => es

/-- The expressions that are visited, in the order of the `visit` calls. -/
def visitedExprs (events : List VisitEvent) : List ASTExpr :=
  events.filterMap fun
    | .visit (.expr e) => some e
    | _ => none

theorem mem_visitedExprs {events : List VisitEvent} {e : ASTExpr} :
    e ∈ visitedExprs events ↔ .visit (.expr e) ∈ events := by
  rw [visitedExprs, List.mem_filterMap]
  constructor
  · rintro ⟨ev, hev, heq⟩
    split at heq
    · cases heq
      exact hev
    · cases heq
  · exact fun h ↦ ⟨_, h, rfl⟩

theorem visitedExprs_append (es es' : List VisitEvent) :
    visitedExprs (es ++ es') = visitedExprs es ++ visitedExprs es' :=
  List.filterMap_append

theorem visitedExprs_expr (e : ASTExpr) (inner : List VisitEvent) :
    visitedExprs (visiting (.expr e) inner) = e :: visitedExprs inner := by
  rw [visiting, visitedExprs_append, visitedExprs, List.filterMap_cons, visitedExprs]
  exact List.append_nil _

theorem visitedExprs_fieldExpr (f : ASTFieldExpr) (inner : List VisitEvent) :
    visitedExprs (visiting (.fieldExpr f) inner) = visitedExprs inner := by
  rw [visiting, visitedExprs_append, visitedExprs, List.filterMap_cons, visitedExprs]
  exact List.append_nil _

theorem visitedExprs_acceptList (es : List ASTExpr) :
    visitedExprs (ASTExpr.acceptList es) = es.flatMap fun e ↦ visitedExprs e.accept := by
  induction es with
  | nil => rfl
  | cons e es ih => rw [ASTExpr.acceptList, visitedExprs_append, ih, List.flatMap_cons]

theorem visitedExprs_acceptFields (fs : List ASTFieldExpr) :
    visitedExprs (ASTExpr.acceptFields fs) =
      (fs.map ASTFieldExpr.initializer).flatMap fun e ↦ visitedExprs e.accept := by
  induction fs with
  | nil => rfl
  | cons f fs ih =>
    obtain ⟨n, field, e⟩ := f
    rw [ASTExpr.acceptFields, visitedExprs_append, visitedExprs_fieldExpr, ih, List.map_cons,
      List.flatMap_cons]
    rfl

/-- The expressions below an expression are visited in pre-order. -/
theorem ASTExpr.isPreOrder_visitedExprs :
    IsPreOrder ASTExpr.subExprs fun e ↦ visitedExprs e.accept := by
  intro e
  cases e with
  | numberExpr _ _ | boolExpr _ _ | inputExpr _ | nullExpr _ | variableExpr _ _ => rfl
  | notExpr _ a | negExpr _ a | allocExpr _ a | refExpr _ a | deRefExpr _ a | accessExpr _ a _
  | arrayLenExpr _ a =>
    exact (visitedExprs_expr _ a.accept).trans (congrArg _ (List.append_nil _).symm)
  | binaryExpr _ _ l r | arrayOfExpr _ l r | indexingExpr _ l r =>
    refine (visitedExprs_expr _ (l.accept ++ r.accept)).trans (congrArg _ ?_)
    rw [visitedExprs_append, ASTExpr.subExprs, List.flatMap_cons, List.flatMap_singleton]
  | funAppExpr _ f as =>
    refine (visitedExprs_expr _ (f.accept ++ ASTExpr.acceptList as)).trans (congrArg _ ?_)
    rw [visitedExprs_append, visitedExprs_acceptList, ASTExpr.subExprs, List.flatMap_cons]
  | recordExpr _ fs =>
    exact (visitedExprs_expr _ _).trans (congrArg _ (visitedExprs_acceptFields fs))
  | ternaryExpr _ c t f =>
    refine (visitedExprs_expr _ (c.accept ++ t.accept ++ f.accept)).trans (congrArg _ ?_)
    rw [visitedExprs_append, visitedExprs_append, ASTExpr.subExprs, List.flatMap_cons,
      List.flatMap_cons, List.flatMap_singleton, List.append_assoc]
  | arrayExpr _ es => exact (visitedExprs_expr _ _).trans (congrArg _ (visitedExprs_acceptList es))

/-- What holds of an expression if it holds of those directly below it, holds of every expression. -/
theorem ASTExpr.induction_subExprs {P : ASTExpr → Prop}
    (step : ∀ e : ASTExpr, (∀ c ∈ e.subExprs, P c) → P e) (e : ASTExpr) : P e :=
  ASTExpr.isPreOrder_visitedExprs.induction step e

/-- An expression that is visited is the expression itself or visited below it. -/
theorem ASTExpr.visit_mem_accept {e x : ASTExpr} :
    .visit (.expr x) ∈ e.accept ↔ x = e ∨ ∃ c ∈ e.subExprs, .visit (.expr x) ∈ c.accept := by
  have h : visitedExprs e.accept = e :: e.subExprs.flatMap fun c ↦ visitedExprs c.accept :=
    ASTExpr.isPreOrder_visitedExprs e
  rw [← mem_visitedExprs, h, List.mem_cons, List.mem_flatMap]
  simp only [mem_visitedExprs]

/-! ### Nodes of a function -/

/-- The node is in the function. -/
def ASTFunction.Visits (f : ASTFunction) (n : ASTNode) : Prop :=
  .visit n ∈ f.accept

namespace ASTFunction.Visits

variable {f : ASTFunction} {n : ASTNode}

theorem accept_subset (h : f.Visits n) : n.accept ⊆ f.accept :=
  ASTNode.accept_subset (.function f) h

theorem child (h : f.Visits n) {c : ASTNode} (hc : c ∈ n.getChildren) : f.Visits c := by
  refine h.accept_subset ?_
  rw [n.accept_eq, visiting]
  refine List.mem_append_left _ (List.mem_cons_of_mem _ (List.mem_flatMap.2 ⟨c, hc, ?_⟩))
  rw [c.accept_eq]
  exact List.mem_cons_self

theorem endVisit (h : f.Visits n) : .endVisit n ∈ f.accept := by
  refine h.accept_subset ?_
  rw [n.accept_eq, visiting]
  exact List.mem_append_right _ (List.mem_singleton_self _)

theorem subExpr {e c : ASTExpr} (h : f.Visits (.expr e)) (hc : c ∈ e.subExprs) :
    f.Visits (.expr c) := by
  refine h.accept_subset (ASTExpr.visit_mem_accept.2 (.inr ⟨c, hc, ?_⟩))
  exact ASTExpr.visit_mem_accept.2 (.inl rfl)

end ASTFunction.Visits

theorem ASTFunction.visits_self (f : ASTFunction) : f.Visits (.function f) := by
  unfold ASTFunction.Visits
  rw [f.accept_eq]
  exact List.mem_cons_self

theorem ASTFunction.visits_body {f : ASTFunction} {s : ASTStmt} (h : s ∈ f.body) :
    f.Visits (.stmt s) :=
  f.visits_self.child (by simp [ASTNode.getChildren, h])

theorem ASTFunction.visits_ret (f : ASTFunction) : f.Visits (.expr f.ret.arg) := by
  have hret : f.Visits (.returnStmt f.ret) := f.visits_self.child (by simp [ASTNode.getChildren])
  exact hret.child List.mem_cons_self

end Sipc
