import Sipc.Frontend.AST

/-!
# What a visitor meets

The calls that `accept` makes for a function are those for its own declaration, for its formals and
local variables, and for the nodes of its body, in this order (`ASTFunction.accept_eq`). The calls
for the body are made for expressions, fields and statements only.
-/

set_option autoImplicit false
set_option relaxedAutoImplicit false

namespace Sipc


/-- The declaration nodes among the calls. -/
def declared (events : List VisitEvent) : List ASTDeclNode :=
  events.filterMap fun
    | .endVisit (.declNode d) => some d
    | _ => none

/-- The call is made for an expression, a field, a statement or a return. -/
def VisitEvent.InBody : VisitEvent → Prop
  | .visit (.expr _) | .endVisit (.expr _) | .visit (.fieldExpr _) | .endVisit (.fieldExpr _)
  | .visit (.stmt _) | .endVisit (.stmt _) | .visit (.returnStmt _) | .endVisit (.returnStmt _) =>
    True
  | _ => False

/-- The call is made for a function. -/
def VisitEvent.OfFunction : VisitEvent → Prop
  | .visit (.function _) | .endVisit (.function _) => True
  | _ => False

theorem declared_append (es es' : List VisitEvent) :
    declared (es ++ es') = declared es ++ declared es' :=
  List.filterMap_append

theorem forall_mem_visiting {P : VisitEvent → Prop} {n : ASTNode} {inner : List VisitEvent}
    (hv : P (.visit n)) (hinner : ∀ e ∈ inner, P e) (he : P (.endVisit n)) :
    ∀ e ∈ visiting n inner, P e := by
  intro e h
  simp only [visiting, List.cons_append, List.mem_cons, List.mem_append, List.not_mem_nil,
    or_false] at h
  rcases h with rfl | h | rfl
  · exact hv
  · exact hinner e h
  · exact he

theorem forall_mem_append {α : Type} {P : α → Prop} {as bs : List α} (ha : ∀ a ∈ as, P a)
    (hb : ∀ b ∈ bs, P b) : ∀ a ∈ as ++ bs, P a := by
  intro a h
  rcases List.mem_append.1 h with h | h
  · exact ha a h
  · exact hb a h

mutual

theorem ASTExpr.inBody_accept : ∀ e : ASTExpr, ∀ ev ∈ e.accept, ev.InBody
  | .numberExpr _ _ | .boolExpr _ _ | .inputExpr _ | .nullExpr _ | .variableExpr _ _ =>
    forall_mem_visiting trivial (fun _ h ↦ nomatch h) trivial
  | .binaryExpr _ _ l r =>
    forall_mem_visiting trivial (forall_mem_append l.inBody_accept r.inBody_accept) trivial
  | .notExpr _ a | .negExpr _ a | .allocExpr _ a | .refExpr _ a | .deRefExpr _ a
  | .accessExpr _ a _ | .arrayLenExpr _ a => forall_mem_visiting trivial a.inBody_accept trivial
  | .funAppExpr _ f as =>
    forall_mem_visiting trivial
      (forall_mem_append f.inBody_accept (ASTExpr.inBody_acceptList as)) trivial
  | .recordExpr _ fs => forall_mem_visiting trivial (ASTExpr.inBody_acceptFields fs) trivial
  | .ternaryExpr _ c t f =>
    forall_mem_visiting trivial (forall_mem_append
      (forall_mem_append c.inBody_accept t.inBody_accept) f.inBody_accept) trivial
  | .arrayExpr _ es => forall_mem_visiting trivial (ASTExpr.inBody_acceptList es) trivial
  | .arrayOfExpr _ a b | .indexingExpr _ a b =>
    forall_mem_visiting trivial (forall_mem_append a.inBody_accept b.inBody_accept) trivial

theorem ASTExpr.inBody_acceptList : ∀ es : List ASTExpr, ∀ ev ∈ ASTExpr.acceptList es, ev.InBody
  | [] => fun _ h ↦ nomatch h
  | e :: es => forall_mem_append e.inBody_accept (ASTExpr.inBody_acceptList es)

theorem ASTExpr.inBody_acceptFields :
    ∀ fs : List ASTFieldExpr, ∀ ev ∈ ASTExpr.acceptFields fs, ev.InBody
  | [] => fun _ h ↦ nomatch h
  | .mk _ _ e :: fs =>
    forall_mem_append (forall_mem_visiting trivial e.inBody_accept trivial)
      (ASTExpr.inBody_acceptFields fs)

end

theorem ForDomain.inBody_accept : ∀ d : ForDomain, ∀ ev ∈ d.accept, ev.InBody
  | .iterator e => e.inBody_accept
  | .range s e none => forall_mem_append s.inBody_accept e.inBody_accept
  | .range s e (some i) =>
    forall_mem_append (forall_mem_append s.inBody_accept e.inBody_accept) i.inBody_accept

mutual

theorem ASTStmt.inBody_accept : ∀ s : ASTStmt, ∀ ev ∈ s.accept, ev.InBody
  | .assignStmt _ l r =>
    forall_mem_visiting trivial (forall_mem_append l.inBody_accept r.inBody_accept) trivial
  | .updateStmt _ a _ | .outputStmt _ a | .errorStmt _ a =>
    forall_mem_visiting trivial a.inBody_accept trivial
  | .blockStmt _ ss => forall_mem_visiting trivial (ASTStmt.inBody_acceptList ss) trivial
  | .whileStmt _ c b =>
    forall_mem_visiting trivial (forall_mem_append c.inBody_accept b.inBody_accept) trivial
  | .forStmt _ i d b =>
    forall_mem_visiting trivial (forall_mem_append
      (forall_mem_append i.inBody_accept d.inBody_accept) b.inBody_accept) trivial
  | .ifStmt _ c t none =>
    forall_mem_visiting trivial (forall_mem_append c.inBody_accept t.inBody_accept) trivial
  | .ifStmt _ c t (some f) =>
    forall_mem_visiting trivial (forall_mem_append
      (forall_mem_append c.inBody_accept t.inBody_accept) f.inBody_accept) trivial

theorem ASTStmt.inBody_acceptList : ∀ ss : List ASTStmt, ∀ ev ∈ ASTStmt.acceptList ss, ev.InBody
  | [] => fun _ h ↦ nomatch h
  | s :: ss => forall_mem_append s.inBody_accept (ASTStmt.inBody_acceptList ss)

end

theorem declared_of_inBody {es : List VisitEvent} (h : ∀ e ∈ es, e.InBody) : declared es = [] := by
  rw [declared, List.filterMap_eq_nil_iff]
  intro e he
  have hbody := h e he
  unfold VisitEvent.InBody at hbody
  split at hbody <;> first | rfl | exact hbody.elim

theorem declared_flatMap_decl (ds : List ASTDeclNode) :
    declared (ds.flatMap ASTDeclNode.accept) = ds := by
  induction ds with
  | nil => rfl
  | cons d ds ih =>
    rw [List.flatMap_cons, declared_append, ih]
    rfl

theorem declared_flatMap_declStmt (ss : List ASTDeclStmt) :
    declared (ss.flatMap ASTDeclStmt.accept) = ss.flatMap ASTDeclStmt.vars := by
  induction ss with
  | nil => rfl
  | cons s ss ih =>
    rw [List.flatMap_cons, declared_append, ih, List.flatMap_cons]
    congr 1
    change declared ([_] ++ s.vars.flatMap ASTDeclNode.accept ++ [_]) = s.vars
    rw [declared_append, declared_append, declared_flatMap_decl]
    simp [declared]

/-- The calls for the formals, the local variables and the body of a function. -/
def ASTFunction.innerEvents (f : ASTFunction) : List VisitEvent :=
  f.formals.flatMap ASTDeclNode.accept ++ f.declarations.flatMap ASTDeclStmt.accept ++
    (ASTStmt.acceptList f.body ++ f.ret.accept)

theorem ASTFunction.accept_eq (f : ASTFunction) :
    f.accept = .visit (.function f) :: .visit (.declNode f.decl) :: .endVisit (.declNode f.decl) ::
      (f.innerEvents ++ [.endVisit (.function f)]) := by
  simp [ASTFunction.accept, ASTFunction.innerEvents, visiting, ASTDeclNode.accept]

theorem ASTReturnStmt.inBody_accept (s : ASTReturnStmt) : ∀ ev ∈ s.accept, ev.InBody :=
  forall_mem_visiting trivial s.arg.inBody_accept trivial

theorem ASTFunction.declared_innerEvents (f : ASTFunction) :
    declared f.innerEvents = f.localDecls := by
  rw [ASTFunction.innerEvents, declared_append, declared_append, declared_flatMap_decl,
    declared_flatMap_declStmt, declared_of_inBody, List.append_nil, ASTFunction.localDecls]
  exact forall_mem_append (ASTStmt.inBody_acceptList f.body) f.ret.inBody_accept

theorem VisitEvent.InBody.not_ofFunction {e : VisitEvent} (h : e.InBody) : ¬ e.OfFunction := by
  unfold VisitEvent.InBody at h
  split at h <;> first | exact h.elim | exact id

theorem ASTFunction.not_ofFunction_innerEvents (f : ASTFunction) :
    ∀ ev ∈ f.innerEvents, ¬ ev.OfFunction := by
  refine forall_mem_append (forall_mem_append ?_ ?_)
    (forall_mem_append (fun ev h ↦ (ASTStmt.inBody_acceptList f.body ev h).not_ofFunction)
      (fun ev h ↦ (f.ret.inBody_accept ev h).not_ofFunction))
  · intro ev hev
    obtain ⟨d, -, hd⟩ := List.mem_flatMap.1 hev
    exact forall_mem_visiting (P := fun ev ↦ ¬ ev.OfFunction) id (List.forall_mem_nil _) id ev hd
  · intro ev hev
    obtain ⟨s, -, hs⟩ := List.mem_flatMap.1 hev
    refine forall_mem_visiting (P := fun ev ↦ ¬ ev.OfFunction) id (fun e he ↦ ?_) id ev hs
    obtain ⟨d, -, hd⟩ := List.mem_flatMap.1 he
    exact forall_mem_visiting (P := fun ev ↦ ¬ ev.OfFunction) id (List.forall_mem_nil _) id e hd

/-! ### Distinct nodes -/

theorem mem_visitedNodes {evs : List VisitEvent} {n : ASTNode} (h : .visit n ∈ evs) :
    n.node ∈ visitedNodes evs :=
  List.mem_filterMap.2 ⟨_, h, rfl⟩

/-- Nodes that were visited are told apart by their addresses. -/
theorem visit_inj {a b : ASTNode} (heq : a.node = b.node) : ∀ {l : List VisitEvent},
    (visitedNodes l).Nodup → .visit a ∈ l → .visit b ∈ l → a = b
  | .visit n :: evs, hnodup, ha, hb => by
    obtain ⟨hn, hevs⟩ := List.nodup_cons.1 hnodup
    rcases List.mem_cons.1 ha with ha' | ha' <;> rcases List.mem_cons.1 hb with hb' | hb'
    · cases ha'
      cases hb'
      rfl
    · cases ha'
      exact absurd (heq ▸ mem_visitedNodes hb') hn
    · cases hb'
      exact absurd (heq ▸ mem_visitedNodes ha') hn
    · exact visit_inj heq hevs ha' hb'
  | .endVisit n :: evs, hnodup, ha, hb =>
    visit_inj heq (l := evs) hnodup (by simpa using ha) (by simpa using hb)

theorem ASTProgram.mem_accept {p : ASTProgram} {f : ASTFunction} {ev : VisitEvent}
    (hf : f ∈ p.functions) (h : ev ∈ f.accept) : ev ∈ p.accept :=
  List.mem_flatMap.2 ⟨f, hf, h⟩

theorem ASTProgram.function_inj {p : ASTProgram} {f g : ASTFunction} (hf : f ∈ p.functions)
    (hg : g ∈ p.functions) (h : f.node = g.node) : f = g := by
  have hvisit : ∀ fn : ASTFunction, VisitEvent.visit (.function fn) ∈ fn.accept := fun fn ↦ by
    rw [fn.accept_eq]
    exact List.mem_cons_self
  have heq := visit_inj (a := .function f) (b := .function g) h p.distinct
    (p.mem_accept hf (hvisit f)) (p.mem_accept hg (hvisit g))
  injection heq

theorem ASTProgram.nodup_nodes (p : ASTProgram) : (p.functions.map ASTFunction.node).Nodup := by
  refine p.distinct.sublist ?_
  generalize p.functions = fs
  induction fs with
  | nil => exact List.nil_sublist _
  | cons f fs ih =>
    rw [List.map_cons, List.flatMap_cons, visitedNodes, List.filterMap_append, f.accept_eq]
    exact (ih.trans (List.sublist_append_right _ _)).cons_cons _

theorem ASTFunction.visit_formal {f : ASTFunction} {d : ASTDeclNode} (h : d ∈ f.formals) :
    .visit (.declNode d) ∈ f.accept := by
  have hd : VisitEvent.visit (.declNode d) ∈ f.formals.flatMap ASTDeclNode.accept :=
    List.mem_flatMap.2 ⟨d, h, List.mem_cons_self⟩
  rw [f.accept_eq, ASTFunction.innerEvents]
  simp only [List.mem_cons, List.mem_append, hd, true_or, or_true]

end Sipc
