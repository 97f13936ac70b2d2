import Sipc.Frontend.SyntaxTree
import Sipc.Library.Fuel
import Sipc.Semantic.Cfa.CallGraphBuilder
import Sipc.Semantic.Cfa.CubicSolverFunctions
import Sipc.Semantic.Types.TopoSort
import Sipc.Semantic.Types.TypeInference
import Sipc.Semantic.Weeding.CheckAssignable

/-!
# Polymorphic type inference

`runPoly` of `semantic/types/TypeInference.cpp`: the functions from which no call cycle is reachable are
inferred one after the other, callees first, and the constraints of the others are solved at the end.
`PolyTypeConstraintVisitor` has the rules of `TypeConstraintVisitor` except for the application: for
every function that the call graph has at the application, there is the constraint of an instance of its
type if it is declared `poly`, and the usual one if it is not.

So an application at which the call graph has no function, or functions declared `poly` only, is not
checked; all others are (`runPoly_checksCalls`).
-/

set_option autoImplicit false
set_option relaxedAutoImplicit false

namespace Sipc

open Library

/-- What `runPoly` throws: an error of type inference, or the failed assertion that the instance of a
generic type is the type of a function. -/
inductive PolyError
  | type (e : TypeError)
  | instantiatedType (app : NodeId)
  deriving DecidableEq

/-- `PolyTypeConstraintCollectVisitor`: the constraints collected, and what the calls of `inferred` have
made of the unifier. -/
structure PolyTypeConstraintVisitor where
  constraints : List TypeConstraint
  closing : Closing

/-- The function at an address. -/
def ASTProgram.functionAt (p : ASTProgram) (f : NodeId) : Option ASTFunction :=
  p.functions.find? fun fn ↦ fn.node = f

section

variable (iter : VarOrder) (fuel : ℕ) (p : ASTProgram) (st : SymbolTable) (cg : CallGraph NodeId)

namespace PolyTypeConstraintVisitor

open TypeConstraintVisitor (astToVar)

/-- `handle` of the constraint handler. -/
def handle (v : PolyTypeConstraintVisitor) (c : TypeConstraint) : PolyTypeConstraintVisitor :=
  { v with constraints := v.constraints ++ [c] }

/-- The body of the loop of `endVisit(ASTFunAppExpr)`. -/
def visitCalled (scope node : NodeId) (function : ASTExpr) (actuals : List ASTExpr)
    (v : PolyTypeConstraintVisitor) (f : NodeId) :
    ExceptT PolyError Option PolyTypeConstraintVisitor :=
  let application : TipType := .function (actuals.map (astToVar st scope)) (.tipVar node)
  let fName := p.getName f
  if st.getPoly fName then do
    let fDecl ← ExceptT.lift (st.getFunction fName)
    let (genericType, closing) ← ExceptT.lift (inferred iter fuel (.tipVar fDecl) v.closing)
    match genericType.freshAlphaCopy node with
    | .function ps r => return { v with closing }.handle ⟨.function ps r, application⟩
    | _ => throw (.instantiatedType node)
  else
    return v.handle ⟨astToVar st scope function, application⟩

/-- `endVisit`. -/
def endVisit (scope : NodeId) (v : PolyTypeConstraintVisitor) :
    ASTNode → ExceptT PolyError Option PolyTypeConstraintVisitor
  | .expr (.funAppExpr n function actuals) =>
    (cg.getCalledFuns n).foldlM (visitCalled iter fuel p st scope n function actuals) v
  | n => return { v with constraints := v.constraints ++ TypeConstraintVisitor.endVisit st scope n }

/-- One call of the visitor. -/
def step (scope : NodeId) (v : PolyTypeConstraintVisitor) :
    VisitEvent → ExceptT PolyError Option PolyTypeConstraintVisitor
  | .endVisit n => endVisit iter fuel p st cg scope v n
  | .visit _ => return v

end PolyTypeConstraintVisitor

/-- `solve`, with what it throws. -/
def Unifier.solvePoly (u : Unifier) : ExceptT PolyError Option Unifier :=
  match u.solve with
  | .ok u => return u
  | .error e => throw (.type (.unification e))

/-- The body of the first loop of `runPoly`. -/
def inferFunction (ti : TypeInference) (f : NodeId) : ExceptT PolyError Option TypeInference := do
  let fn ← ExceptT.lift (p.functionAt f)
  let v ← fn.accept.foldlM (PolyTypeConstraintVisitor.step iter fuel p st cg fn.decl.node)
    ⟨[], ⟨ti.unifier.unionFind, ti.sets⟩⟩
  let unifier ← ({ ti.unifier with unionFind := v.closing.unionFind }.add v.constraints).solvePoly
  return ⟨unifier, v.closing.sets⟩

/-- The body of the second loop of `runPoly`, for a function that was not inferred in the first. -/
def addResidual (unifier : Unifier) (f : NodeId) : ExceptT PolyError Option Unifier := do
  let fn ← ExceptT.lift (p.functionAt f)
  return unifier.add (fn.typeConstraints st)

/-- `runPoly`. -/
def runPoly : ExceptT PolyError Option TypeInference := do
  let nonRecursiveFuncs ← ExceptT.lift (topoSortNonRecursive cg fuel)
  let ti ← nonRecursiveFuncs.foldlM (inferFunction iter fuel p st cg) ⟨.empty, 0⟩
  let residual := cg.getVertices.filter fun f ↦ f ∉ nonRecursiveFuncs
  let unifier ← residual.foldlM (addResidual p st) ti.unifier
  let unifier ← unifier.solvePoly
  match ← ExceptT.lift (AbsentFieldChecker.check iter fuel p ⟨unifier, ti.sets⟩) with
  | .ok ti => return ti
  | .error e => throw (.type e)

end

/-! ### What the visitor hands over -/

namespace PolyTypeConstraintVisitor

open TypeConstraintVisitor (astToVar)

/-- What the calls of the visitor keep. -/
structure Extends (v v' : PolyTypeConstraintVisitor) : Prop where
  rep : v'.closing.unionFind.rep = v.closing.unionFind.rep
  constraints : v.constraints ⊆ v'.constraints

theorem Extends.refl (v : PolyTypeConstraintVisitor) : v.Extends v :=
  ⟨rfl, List.Subset.refl _⟩

theorem Extends.trans {v v' v'' : PolyTypeConstraintVisitor} (h : v.Extends v')
    (h' : v'.Extends v'') : v.Extends v'' :=
  ⟨h'.rep.trans h.rep, List.Subset.trans h.constraints h'.constraints⟩

variable {iter : VarOrder} {fuel : ℕ} {p : ASTProgram} {st : SymbolTable} {cg : CallGraph NodeId}
  {scope node : NodeId} {function : ASTExpr} {actuals : List ASTExpr}
  {v v' : PolyTypeConstraintVisitor} {f : NodeId}

/-- One function that may be called: the constraint of an instance of its type, or the usual one. -/
theorem visitCalled_cases
    (h : (visitCalled iter fuel p st scope node function actuals v f).run = some (.ok v')) :
    (st.getPoly (p.getName f) = true ∧ ∃ fDecl t closing ps r,
      st.getFunction (p.getName f) = some fDecl ∧
      inferred iter fuel (.tipVar fDecl) v.closing = some (t, closing) ∧
      t.freshAlphaCopy node = .function ps r ∧ v' = { v with closing }.handle
        ⟨.function ps r, .function (actuals.map (astToVar st scope)) (.tipVar node)⟩) ∨
    st.getPoly (p.getName f) = false ∧ v' = v.handle
      ⟨astToVar st scope function, .function (actuals.map (astToVar st scope)) (.tipVar node)⟩ := by
  unfold visitCalled at h
  dsimp only at h
  split_ifs at h with hpoly
  · rw [bind_lift_eq_ok] at h
    obtain ⟨fDecl, hdecl, h⟩ := h
    rw [bind_lift_eq_ok] at h
    obtain ⟨⟨t, closing⟩, hinferred, h⟩ := h
    dsimp only at h
    cases hcopy : t.freshAlphaCopy node with
    | function ps r =>
      rw [hcopy] at h
      obtain rfl := Except.ok.inj (Option.some.inj h)
      exact Or.inl ⟨hpoly, fDecl, t, closing, ps, r, hdecl, hinferred, hcopy, rfl⟩
    | _ =>
      rw [hcopy] at h
      cases h
  · obtain rfl := Except.ok.inj (Option.some.inj h)
    exact Or.inr ⟨by simpa using hpoly, rfl⟩

theorem extends_visitCalled
    (h : (visitCalled iter fuel p st scope node function actuals v f).run = some (.ok v')) :
    v.Extends v' := by
  rcases visitCalled_cases h with ⟨-, fDecl, t, closing, ps, r, -, hinferred, -, rfl⟩ | ⟨-, rfl⟩
  · exact ⟨close_rep_eq iter hinferred, List.subset_append_left _ _⟩
  · exact ⟨rfl, List.subset_append_left _ _⟩

theorem extends_step {ev : VisitEvent}
    (h : (step iter fuel p st cg scope v ev).run = some (.ok v')) : v.Extends v' := by
  unfold step endVisit at h
  split at h
  · split at h
    · exact foldlM_rel Extends.refl Extends.trans extends_visitCalled h
    · obtain rfl := Except.ok.inj (Option.some.inj h)
      exact ⟨rfl, List.subset_append_left _ _⟩
  · obtain rfl := Except.ok.inj (Option.some.inj h)
    exact .refl v

/-- Every function that the call graph has at an application is visited there. -/
theorem exists_visitCalled {evs : List VisitEvent}
    (h : (evs.foldlM (step iter fuel p st cg scope) v).run = some (.ok v'))
    (hmem : .endVisit (.expr (.funAppExpr node function actuals)) ∈ evs)
    (hf : f ∈ cg.getCalledFuns node) : ∃ v₁ v₂, v.Extends v₁ ∧
      (visitCalled iter fuel p st scope node function actuals v₁ f).run = some (.ok v₂) ∧
      v₂.Extends v' := by
  obtain ⟨before, after, rfl⟩ := List.append_of_mem hmem
  obtain ⟨v₁, v₂, hbefore, happ, hafter⟩ := foldlM_append_cons.1 h
  obtain ⟨called, others, hcalled⟩ := List.append_of_mem hf
  change ((cg.getCalledFuns node).foldlM
    (visitCalled iter fuel p st scope node function actuals) v₁).run = some (.ok v₂) at happ
  rw [hcalled] at happ
  obtain ⟨w₁, w₂, hfirst, hone, hrest⟩ := foldlM_append_cons.1 happ
  have hsteps : ∀ {evs : List VisitEvent} {v v' : PolyTypeConstraintVisitor},
      (evs.foldlM (step iter fuel p st cg scope) v).run = some (.ok v') → v.Extends v' :=
    foldlM_rel Extends.refl Extends.trans extends_step
  have hvisits : ∀ {fs : List NodeId} {v v' : PolyTypeConstraintVisitor},
      (fs.foldlM (visitCalled iter fuel p st scope node function actuals) v).run = some (.ok v') →
        v.Extends v' := foldlM_rel Extends.refl Extends.trans extends_visitCalled
  exact ⟨w₁, w₂, (hsteps hbefore).trans (hvisits hfirst), hone, (hvisits hrest).trans (hsteps hafter)⟩

end PolyTypeConstraintVisitor

/-! ### The stages -/

theorem Unifier.Sound.of_rep_eq {u : Unifier} (h : u.Sound) {U : TypeForest}
    (hU : U.rep = u.unionFind.rep) : Unifier.Sound { u with unionFind := U } := by
  constructor
  · rw [hU]
    exact h.closed
  · rw [hU]
    exact h.proper
  · rw [hU]
    exact h.entailed

/-- A unifier that was solved is solved, and has its constraints. -/
theorem Unifier.Sound.of_solvePoly {u u' : Unifier} (h : u.Sound)
    (hsolve : u.solvePoly.run = some (.ok u')) : u'.constraints = u.constraints ∧ u'.Solved := by
  unfold Unifier.solvePoly at hsolve
  rcases h.solve with ⟨w, hw, hconstraints, hsolved⟩ | ⟨⟨e, he⟩, -⟩
  · rw [hw] at hsolve
    obtain rfl := Except.ok.inj (Option.some.inj hsolve)
    exact ⟨hconstraints, hsolved⟩
  · rw [he] at hsolve
    cases hsolve

/-- What the stages keep. -/
def Unifier.Extends (u u' : Unifier) : Prop :=
  u.Sound → u'.Sound ∧ u.constraints ⊆ u'.constraints

theorem Unifier.Extends.refl (u : Unifier) : u.Extends u :=
  fun h ↦ ⟨h, List.Subset.refl _⟩

theorem Unifier.Extends.trans {u v w : Unifier} (h : u.Extends v) (h' : v.Extends w) :
    u.Extends w := by
  intro hu
  obtain ⟨hv, huv⟩ := h hu
  obtain ⟨hw, hvw⟩ := h' hv
  exact ⟨hw, List.Subset.trans huv hvw⟩

namespace ASTProgram

variable {p : ASTProgram}

theorem functionAt_eq_some_iff {x : NodeId} {f : ASTFunction} :
    p.functionAt x = some f ↔ f ∈ p.functions ∧ f.node = x := by
  constructor
  · exact fun h ↦ ⟨List.mem_of_find?_eq_some h, by simpa using List.find?_some h⟩
  · rintro ⟨hf, rfl⟩
    cases hfind : p.functionAt f.node with
    | none => exact absurd (List.find?_eq_none.1 hfind f hf) (by simp)
    | some g =>
      have hnode : g.node = f.node := by simpa using List.find?_some hfind
      rw [p.function_inj (List.mem_of_find?_eq_some hfind) hf hnode]

end ASTProgram

section Stages

variable {iter : VarOrder} {fuel : ℕ} {p : ASTProgram} {st : SymbolTable} {cg : CallGraph NodeId}

/-- One stage visits the function and solves with the constraints that it got. -/
theorem inferFunction_cases {ti ti' : TypeInference} {x : NodeId}
    (h : (inferFunction iter fuel p st cg ti x).run = some (.ok ti')) :
    ∃ f ∈ p.functions, f.node = x ∧ ∃ v : PolyTypeConstraintVisitor,
      (f.accept.foldlM (PolyTypeConstraintVisitor.step iter fuel p st cg f.decl.node)
        ⟨[], ⟨ti.unifier.unionFind, ti.sets⟩⟩).run = some (.ok v) ∧
      (ti.unifier.Sound → ti'.unifier.Sound ∧
        ti'.unifier.constraints = ti.unifier.constraints ++ v.constraints) := by
  unfold inferFunction at h
  rw [bind_lift_eq_ok] at h
  obtain ⟨f, hf, h⟩ := h
  rw [bind_eq_ok] at h
  obtain ⟨v, hv, h⟩ := h
  rw [bind_eq_ok] at h
  obtain ⟨u, hu, h⟩ := h
  obtain rfl := Except.ok.inj (Option.some.inj h)
  obtain ⟨hmem, hnode⟩ := ASTProgram.functionAt_eq_some_iff.1 hf
  refine ⟨f, hmem, hnode, v, hv, fun hsound ↦ ?_⟩
  have hextends := foldlM_rel PolyTypeConstraintVisitor.Extends.refl
    PolyTypeConstraintVisitor.Extends.trans PolyTypeConstraintVisitor.extends_step hv
  have hadd := (hsound.of_rep_eq hextends.rep).add v.constraints
  obtain ⟨hconstraints, hsolved⟩ := hadd.of_solvePoly hu
  exact ⟨hsolved.toSound, hconstraints⟩

theorem extends_inferFunction {ti ti' : TypeInference} {x : NodeId}
    (h : (inferFunction iter fuel p st cg ti x).run = some (.ok ti')) :
    ti.unifier.Extends ti'.unifier := by
  obtain ⟨-, -, -, v, -, hstage⟩ := inferFunction_cases h
  intro hsound
  obtain ⟨hsound', hconstraints⟩ := hstage hsound
  rw [hconstraints]
  exact ⟨hsound', List.subset_append_left _ _⟩

theorem extends_stages {l : List NodeId} {ti ti' : TypeInference}
    (h : (l.foldlM (inferFunction iter fuel p st cg) ti).run = some (.ok ti')) :
    ti.unifier.Extends ti'.unifier :=
  foldlM_rel (R := fun ti ti' : TypeInference ↦ ti.unifier.Extends ti'.unifier) (fun _ ↦ .refl _)
    .trans extends_inferFunction h

theorem addResidual_cases {u u' : Unifier} {x : NodeId}
    (h : (addResidual p st u x).run = some (.ok u')) :
    ∃ f ∈ p.functions, f.node = x ∧ u' = u.add (f.typeConstraints st) := by
  unfold addResidual at h
  rw [bind_lift_eq_ok] at h
  obtain ⟨f, hf, h⟩ := h
  obtain ⟨hmem, hnode⟩ := ASTProgram.functionAt_eq_some_iff.1 hf
  exact ⟨f, hmem, hnode, (Except.ok.inj (Option.some.inj h)).symm⟩

theorem extends_addResidual {u u' : Unifier} {x : NodeId}
    (h : (addResidual p st u x).run = some (.ok u')) : u.Extends u' := by
  obtain ⟨f, -, -, rfl⟩ := addResidual_cases h
  exact fun hsound ↦ ⟨hsound.add _, List.subset_append_left _ _⟩

theorem extends_residual {l : List NodeId} {u u' : Unifier}
    (h : (l.foldlM (addResidual p st) u).run = some (.ok u')) : u.Extends u' :=
  foldlM_rel Unifier.Extends.refl Unifier.Extends.trans extends_addResidual h

/-- What `runPoly` has done when it returns. -/
structure PolyRun (iter : VarOrder) (fuel : ℕ) (p : ASTProgram) (st : SymbolTable)
    (cg : CallGraph NodeId) (ti : TypeInference) where
  nonRecursiveFuncs : List NodeId
  stages : TypeInference
  residual : Unifier
  sorted : topoSortNonRecursive cg fuel = some nonRecursiveFuncs
  run_stages : (nonRecursiveFuncs.foldlM (inferFunction iter fuel p st cg) ⟨.empty, 0⟩).run =
    some (.ok stages)
  run_residual : ((cg.getVertices.filter fun f ↦ f ∉ nonRecursiveFuncs).foldlM (addResidual p st)
    stages.unifier).run = some (.ok residual)
  constraints : ti.unifier.constraints = residual.constraints
  solved : ti.unifier.Solved

theorem exists_polyRun {ti : TypeInference}
    (h : (runPoly iter fuel p st cg).run = some (.ok ti)) : Nonempty (PolyRun iter fuel p st cg ti) := by
  unfold runPoly at h
  rw [bind_lift_eq_ok] at h
  obtain ⟨fs, hfs, h⟩ := h
  rw [bind_eq_ok] at h
  obtain ⟨stages, hstages, h⟩ := h
  rw [bind_eq_ok] at h
  obtain ⟨residual, hresidual, h⟩ := h
  rw [bind_eq_ok] at h
  obtain ⟨u, hu, h⟩ := h
  rw [bind_lift_eq_ok] at h
  obtain ⟨r, hcheck, h⟩ := h
  cases r with
  | error e => cases h
  | ok ti' =>
    obtain rfl : ti' = ti := Except.ok.inj (Option.some.inj h)
    have hsound := (extends_stages hstages Unifier.sound_empty).1
    have hsound' := (extends_residual hresidual hsound).1
    obtain ⟨hconstraints, hsolved⟩ := hsound'.of_solvePoly hu
    -- the check of absent fields changes no representative
    obtain ⟨r, hsteps, hr⟩ := Option.map_eq_some_iff.1 hcheck
    cases r with
    | error e => cases hr
    | ok c =>
      obtain rfl := Except.ok.inj hr
      have hrep := (AbsentFieldChecker.steps_ok hsteps).1
      refine ⟨fs, stages, residual, hfs, hstages, hresidual, hconstraints,
        hsolved.toSound.of_rep_eq hrep, fun c hc ↦ ?_⟩
      dsimp only
      rw [hrep]
      exact hsolved.satisfied c hc

end Stages

/-! ### Which calls are checked -/

/-- The call graph of a program. -/
def CallGraph.ofProgram {p : ASTProgram} {st : SymbolTable} {iter : IterationOrder} {fuel : ℕ}
    {cg : CallGraphObject} (h : CallGraphObject.ofProgram p st iter fuel = some cg) :
    CallGraph NodeId where
  vertices := cg.getVertices
  callGraph := cg.getCallees
  mayCall n := (cg.getCalledFuns n).1
  nodup := by
    rw [CallGraphObject.getVertices, CallGraphObject.vertices_of_ofProgram h]
    exact p.nodup_nodes
  callees_mem := by
    intro f c hc
    have hbuilt := CallGraphObject.built_of_ofProgram h
    obtain ⟨f, -, -, n, -, -, -, hc⟩ := (hbuilt.mem_pairs f c).1 (hbuilt.inOrder.mem_getCallees.1 hc)
    obtain ⟨g, hg, rfl⟩ := hbuilt.functions n c hc
    rw [CallGraphObject.getVertices, CallGraphObject.vertices_of_ofProgram h]
    exact List.mem_map_of_mem hg

open TypeConstraintVisitor (astToVar)

/-- In the classes of `rep`, the term is the type of the functions from the types of the actuals to the
type of the application. -/
def IsCallType (st : SymbolTable) (scope : NodeId) (rep : TipType → TipType) (node : NodeId)
    (actuals : List ASTExpr) (t : TipType) : Prop :=
  ∃ ps r, t = .function ps r ∧ ps.map rep = actuals.map (fun a ↦ rep (astToVar st scope a)) ∧
    rep r = rep (.tipVar node)

/-- The expression is the name of the function. -/
def ASTFunction.IsNamedBy (f : ASTFunction) (e : ASTExpr) : Prop :=
  ∃ n, e = .variableExpr n f.name

section Calls

variable (iter : VarOrder) (fuel : ℕ) (p : ASTProgram) (st : SymbolTable) (cg : CallGraph NodeId)

/-- The term is the type inferred of `g` at the stage of `f`. -/
def IsGenericType (f g : ASTFunction) (t : TipType) : Prop :=
  ∃ before after ti c c', topoSortNonRecursive cg fuel = some (before ++ f.node :: after) ∧
    (before.foldlM (inferFunction iter fuel p st cg) ⟨.empty, 0⟩).run = some (.ok ti) ∧
    c.unionFind.rep = ti.unifier.unionFind.rep ∧
    inferred iter fuel (.tipVar g.decl.node) c = some (t, c')

/-- What is applied has the type of a function from the types of the actuals to the type of the
application, or it is the name of a function declared `poly` and these types form an instance of its
generic type. -/
def ChecksCall (ti : TypeInference) (f : ASTFunction) (node : NodeId) (function : ASTExpr)
    (actuals : List ASTExpr) : Prop :=
  IsCallType st f.decl.node ti.unifier.unionFind.rep node actuals
      (ti.unifier.unionFind.rep (astToVar st f.decl.node function)) ∨
    ∃ g ∈ p.functions, g.isPoly = true ∧ g.IsNamedBy function ∧
      ∃ t, IsGenericType iter fuel p st cg f g t ∧
        IsCallType st f.decl.node ti.unifier.unionFind.rep node actuals (t.freshAlphaCopy node)

end Calls

/-- Function types of one class have parameters and results of one class. -/
theorem Unifier.Solved.rep_function {u : Unifier} (h : u.Solved) {ps qs : List TipType}
    {r s : TipType} (heq : u.unionFind.rep (.function ps r) = u.unionFind.rep (.function qs s)) :
    ps.map u.unionFind.rep = qs.map u.unionFind.rep ∧ u.unionFind.rep r = u.unionFind.rep s := by
  obtain ⟨⟨-, hlen⟩, hargs⟩ := h.closed _ _ ⟨_, rfl⟩ ⟨_, rfl⟩ heq
  change (ps ++ [r]).length = (qs ++ [s]).length at hlen
  have hmap : (ps ++ [r]).map u.unionFind.rep = (qs ++ [s]).map u.unionFind.rep := by
    refine List.ext_getElem (by simpa using hlen) fun i hi hi' ↦ ?_
    rw [List.length_map] at hi hi'
    rw [List.getElem_map, List.getElem_map]
    refine (hargs _ _ (List.mem_iff_getElem.2 ⟨i, ?_, List.getElem_zip⟩)).rep_eq
    rw [List.length_zip]
    exact lt_min hi hi'
  rw [List.map_append, List.map_append] at hmap
  obtain ⟨hps, hr⟩ := List.append_inj' hmap rfl
  exact ⟨hps, List.singleton_inj.1 hr⟩

/-- What is in one class with a function type is a function type of that class. -/
theorem Unifier.Solved.isCallType {u : Unifier} (h : u.Solved) {st : SymbolTable} {scope node : NodeId}
    {actuals : List ASTExpr} {t : TipType} (heq : u.unionFind.rep t =
      u.unionFind.rep (.function (actuals.map (astToVar st scope)) (.tipVar node))) :
    IsCallType st scope u.unionFind.rep node actuals (u.unionFind.rep t) := by
  have hroot : u.unionFind.rep (u.unionFind.rep t) =
      u.unionFind.rep (.function (actuals.map (astToVar st scope)) (.tipVar node)) :=
    (u.unionFind.rep_rep t).trans heq
  have hproper : typeView.Proper (u.unionFind.rep t) := by
    rw [heq]
    exact h.proper _ ⟨_, rfl⟩
  obtain ⟨⟨hhead, -⟩, -⟩ := h.closed _ _ hproper ⟨_, rfl⟩ hroot
  revert hroot hhead
  generalize u.unionFind.rep t = t'
  intro hroot hhead
  cases t' with
  | function ps r =>
    obtain ⟨hps, hr⟩ := h.rep_function hroot
    exact ⟨ps, r, rfl, by rw [hps, List.map_map]; rfl, hr⟩
  | _ => cases hhead

/-- A name of a function may call the function. -/
theorem CallGraphObject.mem_getCalledFuns_of_isNamedBy {p : ASTProgram} {st : SymbolTable}
    (h : st.Describes p) {iter : IterationOrder} {fuel : ℕ} {cg : CallGraphObject}
    (hcg : ofProgram p st iter fuel = some cg) {f g : ASTFunction} (hf : f ∈ p.functions)
    (hg : g ∈ p.functions) {n : NodeId} {e : ASTExpr} {as : List ASTExpr} (hcall : f.HasCall n e as)
    (he : g.IsNamedBy e) : g.node ∈ (cg.getCalledFuns n).1 := by
  obtain ⟨S, hS, hcalls⟩ := exists_isSolution h hcg
  refine (hcalls f hf n e as hcall g.node ?_).1
  have hset : S g.decl.node g.node := hS (.elementof g.node g.decl.node)
    (List.mem_flatMap.2 ⟨g, hg, List.mem_cons_self⟩)
  obtain ⟨m, rfl⟩ := he
  have hlocal : st.getLocal g.name f.decl.node = none := by
    rw [Option.eq_none_iff_forall_ne_some]
    intro x hx
    obtain ⟨d, hd, hname, -⟩ := h.of_getLocal f hf _ _ hx
    have hnot := h.local_not_function f hf d hd
    rw [hname, h.getFunction g hg] at hnot
    cases hnot
  rw [← CFAnalyzer.canonical_eq h hf, SymbolTable.canonical, hlocal, h.getFunction g hg]
  exact hset

section Run

variable {iter : VarOrder} {fuel : ℕ} {p : ASTProgram} {st : SymbolTable} {cg : CallGraph NodeId}
  {ti : TypeInference}

/-- The constraints of a stage hold in the end. -/
theorem PolyRun.satisfied (h : PolyRun iter fuel p st cg ti) {f : ASTFunction} (hf : f ∈ p.functions)
    (hmem : f.node ∈ h.nonRecursiveFuncs) : ∃ before after stage v,
      h.nonRecursiveFuncs = before ++ f.node :: after ∧
      (before.foldlM (inferFunction iter fuel p st cg) ⟨.empty, 0⟩).run = some (.ok stage) ∧
      (f.accept.foldlM (PolyTypeConstraintVisitor.step iter fuel p st cg f.decl.node)
        ⟨[], ⟨stage.unifier.unionFind, stage.sets⟩⟩).run = some (.ok v) ∧
      ∀ c ∈ v.constraints, ti.unifier.unionFind.rep c.lhs = ti.unifier.unionFind.rep c.rhs := by
  obtain ⟨before, after, hsplit⟩ := List.append_of_mem hmem
  have hstages := h.run_stages
  rw [hsplit] at hstages
  obtain ⟨stage, stage', hbefore, hstage, hafter⟩ := foldlM_append_cons.1 hstages
  have hsound := (extends_stages hbefore Unifier.sound_empty).1
  obtain ⟨g, hg, hnode, v, hv, hstep⟩ := inferFunction_cases hstage
  obtain rfl := p.function_inj hg hf hnode
  obtain ⟨hsound', hconstraints⟩ := hstep hsound
  obtain ⟨hsound'', hlater⟩ := extends_stages hafter hsound'
  have hresidual := (extends_residual h.run_residual hsound'').2
  refine ⟨before, after, stage, v, hsplit, hbefore, hv, fun c hc ↦ h.solved.satisfied c ?_⟩
  rw [h.constraints]
  refine hresidual (hlater ?_)
  rw [hconstraints]
  exact List.mem_append_right _ hc

/-- The constraints of a function that is not inferred in a stage hold in the end. -/
theorem PolyRun.satisfied_residual (h : PolyRun iter fuel p st cg ti) {f : ASTFunction}
    (hf : f ∈ p.functions) (hvertex : f.node ∈ cg.getVertices)
    (hmem : f.node ∉ h.nonRecursiveFuncs) : ∀ c ∈ f.typeConstraints st,
      ti.unifier.unionFind.rep c.lhs = ti.unifier.unionFind.rep c.rhs := by
  obtain ⟨before, after, hsplit⟩ := List.append_of_mem
    (List.mem_filter.2 ⟨hvertex, decide_eq_true hmem⟩ :
      f.node ∈ cg.getVertices.filter fun f ↦ f ∉ h.nonRecursiveFuncs)
  have hrun := h.run_residual
  rw [hsplit] at hrun
  obtain ⟨u, u', hbefore, hone, hafter⟩ := foldlM_append_cons.1 hrun
  have hstages := (extends_stages h.run_stages Unifier.sound_empty).1
  have hsound := (extends_residual hbefore hstages).1
  obtain ⟨g, hg, hnode, rfl⟩ := addResidual_cases hone
  obtain rfl := p.function_inj hg hf hnode
  intro c hc
  refine h.solved.satisfied c ?_
  rw [h.constraints]
  exact (extends_residual hafter (hsound.add _)).2 (List.mem_append_right _ hc)

end Run

/-- In polymorphic mode every application is checked, if at each application of a function that reaches
no call cycle a function is applied by its name, or the call graph has a function not declared `poly`. -/
theorem runPoly_checksCalls {p : ASTProgram} {st : SymbolTable} (hb : SymbolTable.build p = .ok st)
    {iterCfa : IterationOrder} {fuelCfa : ℕ} {cg : CallGraphObject}
    (hcg : CallGraphObject.ofProgram p st iterCfa fuelCfa = some cg) {iter : VarOrder} {fuel : ℕ}
    {ti : TypeInference} (hrun : (runPoly iter fuel p st (.ofProgram hcg)).run = some (.ok ti))
    (happ : ∀ f ∈ p.functions, ¬ (CallGraph.ofProgram hcg).CallsCycle f.node →
      ∀ n e as, f.HasCall n e as → (∃ g ∈ p.functions, g.IsNamedBy e) ∨
        ∃ g ∈ p.functions, g.isPoly = false ∧ g.node ∈ (cg.getCalledFuns n).1) :
    ∀ f ∈ p.functions, ∀ n e as, f.HasCall n e as →
      ChecksCall iter fuel p st (.ofProgram hcg) ti f n e as := by
  have h := SymbolTable.build_spec hb
  obtain ⟨run⟩ := exists_polyRun hrun
  intro f hf n e as hcall
  have hend : VisitEvent.endVisit (.expr (.funAppExpr n e as)) ∈ f.accept :=
    ASTFunction.Visits.endVisit hcall
  by_cases hmem : f.node ∈ run.nonRecursiveFuncs
  · obtain ⟨before, after, stage, v, hsplit, hbefore, hv, hsat⟩ := run.satisfied hf hmem
    -- what the stage hands over for a function that may be called
    have hcalled : ∀ g ∈ p.functions, g.node ∈ (cg.getCalledFuns n).1 →
        (g.isPoly = true → g.IsNamedBy e) →
        ChecksCall iter fuel p st (.ofProgram hcg) ti f n e as := by
      intro g hg hgcalled hnamed
      obtain ⟨v₁, v₂, hv₁, hvisit, hv₂⟩ :=
        PolyTypeConstraintVisitor.exists_visitCalled hv hend hgcalled
      have hname := CallGraphObject.getName_node hg
      rcases PolyTypeConstraintVisitor.visitCalled_cases hvisit with
        ⟨hpoly, fDecl, t, closing, ps, r, hdecl, hinferred, hcopy, rfl⟩ | ⟨-, rfl⟩
      · rw [hname, h.getFunction g hg] at hdecl
        obtain rfl := Option.some.inj hdecl
        rw [hname, h.getPoly g hg] at hpoly
        obtain ⟨hps, hr⟩ := run.solved.rep_function
          (hsat _ (hv₂.constraints (List.mem_append_right _ List.mem_cons_self)))
        exact .inr ⟨g, hg, hpoly, hnamed hpoly, t,
          ⟨before, after, stage, _, _, by rw [← hsplit]; exact run.sorted, hbefore, hv₁.rep,
            hinferred⟩, ps, r, hcopy, by rw [hps, List.map_map]; rfl, hr⟩
      · exact .inl (run.solved.isCallType
          (hsat _ (hv₂.constraints (List.mem_append_right _ List.mem_cons_self))))
    rcases happ f hf (nonRecursive_of_topoSortNonRecursive run.sorted f.node hmem).2 n e as hcall with
      ⟨g, hg, hnamed⟩ | ⟨g, hg, hpoly, hgcalled⟩
    · exact hcalled g hg (CallGraphObject.mem_getCalledFuns_of_isNamedBy h hcg hf hg hcall hnamed)
        fun _ ↦ hnamed
    · refine hcalled g hg hgcalled fun hpoly' ↦ ?_
      rw [hpoly] at hpoly'
      cases hpoly'
  · have hvertex : f.node ∈ (CallGraph.ofProgram hcg).getVertices := by
      change f.node ∈ cg.vertices
      rw [CallGraphObject.vertices_of_ofProgram hcg]
      exact List.mem_map_of_mem hf
    exact .inl (run.solved.isCallType (run.satisfied_residual hf hvertex hmem _
      (List.mem_flatMap.2 ⟨_, hend, List.mem_singleton_self _⟩)))

/-- `f(x) poly { return x; } main() { return f(1); }` -/
def callPolyProgram : ASTProgram where
  functions :=
    [⟨0, ⟨1, "f"⟩, [⟨2, "x"⟩], [], [], ⟨3, .variableExpr 4 "x"⟩, true⟩,
      ⟨5, ⟨6, "main"⟩, [], [], [],
        ⟨7, .funAppExpr 8 (.variableExpr 9 "f") [.numberExpr 10 1]⟩, false⟩]
  distinct := by decide

theorem runPoly_checksCalls_callPoly : ∃ st cg ti,
    ∃ hcg : CallGraphObject.ofProgram callPolyProgram st .creation 9 = some cg,
      SymbolTable.build callPolyProgram = .ok st ∧
      (runPoly .creation 9 callPolyProgram st (.ofProgram hcg)).run = some (.ok ti) ∧
      ∀ f ∈ callPolyProgram.functions, ∀ n e as, f.HasCall n e as →
        ChecksCall .creation 9 callPolyProgram st (.ofProgram hcg) ti f n e as := by
  refine ⟨_, _, _, (Option.some_get (by decide)).symm, rfl, rfl,
    runPoly_checksCalls rfl _ rfl fun f hf _ n e as hcall ↦ Or.inl ⟨_, List.mem_cons_self, 9, ?_⟩⟩
  simp only [callPolyProgram, List.mem_cons, List.not_mem_nil, or_false] at hf
  rcases hf with rfl | rfl <;>
    simp [ASTFunction.HasCall, ASTFunction.accept, ASTStmt.acceptList, ASTReturnStmt.accept,
      ASTExpr.accept, ASTExpr.acceptList, ASTDeclNode.accept, visiting] at hcall
  exact hcall.2.1

/-- `f(x) { return x + 1; } main() { return (true ? f : f)(true); }` -/
def callTrueProgram : ASTProgram where
  functions :=
    [⟨0, ⟨1, "f"⟩, [⟨2, "x"⟩], [], [],
        ⟨3, .binaryExpr 4 .add (.variableExpr 5 "x") (.numberExpr 6 1)⟩, false⟩,
      ⟨7, ⟨8, "main"⟩, [], [], [],
        ⟨9, .funAppExpr 10 (.ternaryExpr 11 (.boolExpr 12 true) (.variableExpr 13 "f")
          (.variableExpr 14 "f")) [.boolExpr 15 true]⟩, false⟩]
  distinct := by decide

/-- The call graph has no function at the application of a ternary, and a function of integers is
applied to `true`. -/
theorem not_runPoly_checksCalls_callTrue : ∃ st cg ti,
    ∃ hcg : CallGraphObject.ofProgram callTrueProgram st .creation 9 = some cg,
      SymbolTable.build callTrueProgram = .ok st ∧ CheckAssignable.check callTrueProgram = .ok () ∧
      (runPoly .creation 9 callTrueProgram st (.ofProgram hcg)).run = some (.ok ti) ∧
      ¬ ∀ f ∈ callTrueProgram.functions, ∀ n e as, f.HasCall n e as →
        ChecksCall .creation 9 callTrueProgram st (.ofProgram hcg) ti f n e as := by
  refine ⟨_, _, _, (Option.some_get (by decide)).symm, rfl, rfl, rfl, fun h ↦ ?_⟩
  have hcall : (callTrueProgram.functions.get ⟨1, by decide⟩).HasCall 10
      (.ternaryExpr 11 (.boolExpr 12 true) (.variableExpr 13 "f") (.variableExpr 14 "f"))
      [.boolExpr 15 true] := by
    simp [ASTFunction.HasCall, callTrueProgram, ASTFunction.accept, ASTReturnStmt.accept,
      ASTExpr.accept, visiting]
  rcases h _ (List.get_mem _ _) _ _ _ hcall with ⟨ps, r, htype, hps, -⟩ | ⟨g, -, -, ⟨n, hn⟩, -⟩
  · obtain ⟨rfl, -⟩ := TipType.function.inj (htype.symm.trans
      (show _ = TipType.function [.tipVar 2] (.tipVar 4) by decide +kernel))
    exact absurd hps (by decide +kernel)
  · cases hn

end Sipc
