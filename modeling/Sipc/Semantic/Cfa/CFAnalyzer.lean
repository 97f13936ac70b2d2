import Sipc.Semantic.SymbolTable
import Sipc.Semantic.Cfa.CubicSolver

/-!
# The control-flow analysis

`semantic/cfa/CFAnalyzer`: the visitor that hands the constraints of a program to the cubic solver. A
variable of a constraint is the address of a node, and so is a function. `ASTProgram.Flow` says which
constraints the functions, assignments and applications of a program call for; the visitor hands over
all of them except the flow of results into applications without arguments (`mem_flowConstraints`).
-/

set_option autoImplicit false
set_option relaxedAutoImplicit false

namespace Sipc

open Library (SetConstraint)

/-- `CFAnalyzer`: the stack of scopes, and the calls of the solver so far. -/
structure CFAnalyzer where
  scope : List NodeId
  calls : List (SetConstraint NodeId NodeId)

namespace CFAnalyzer

variable (p : ASTProgram) (st : SymbolTable)

/-- The body of the loops of `visit(ASTFunAppExpr)` for the function `fn`, in the scope `scope`. -/
def callTo (scope node : NodeId) (function : ASTExpr) (actuals : List ASTExpr) (fn : ASTFunction) :
    List (SetConstraint NodeId NodeId) :=
  if fn.formals.length = actuals.length then
    (fn.formals.zip actuals).flatMap fun pair ↦
      [.conditional fn.node (st.canonical scope function) (st.canonical scope pair.2) pair.1.node,
        .conditional fn.node (st.canonical scope function)
          (st.canonical fn.decl.node fn.ret.arg) node]
  else []

/-- One call of the visitor. The top of an empty stack is undefined. -/
def step (c : CFAnalyzer) : VisitEvent → Option CFAnalyzer
  | .visit (.function f) =>
    some ⟨f.decl.node :: c.scope, c.calls ++ [.elementof f.node f.decl.node]⟩
  | .endVisit (.function _) => some ⟨c.scope.tail, c.calls⟩
  | .visit (.expr (.funAppExpr n function actuals)) => do
    let top ← c.scope.head?
    return ⟨c.scope, c.calls ++ p.functions.flatMap (callTo st top n function actuals)⟩
  | .visit (.stmt (.assignStmt _ lhs rhs)) => do
    let top ← c.scope.head?
    return ⟨c.scope, c.calls ++ [.subseteq (st.canonical top rhs) (st.canonical top lhs)]⟩
  | _ => some c

/-- The calls of the solver that `CFAnalyzer::analyze` makes, in order. -/
def analyze : Option (List (SetConstraint NodeId NodeId)) :=
  (p.accept.foldlM (step p st) ⟨[], []⟩).map CFAnalyzer.calls

end CFAnalyzer

/-! ### The constraints of a program -/

/-- What an expression in the function `f` stands for: a variable for its declaration in `f`, or else
for the function of its name, and any other node for itself. -/
def ASTProgram.denoted (p : ASTProgram) (f : ASTFunction) : ASTExpr → NodeId
  | .variableExpr n x =>
    match f.localDecls.find? fun d ↦ d.name = x with
    | some d => d.node
    | none =>
      match p.findFunctionByName x with
      | some g => g.decl.node
      | none => n
  | e => e.node

/-- The application is in the function. -/
def ASTFunction.HasCall (f : ASTFunction) (node : NodeId) (function : ASTExpr)
    (actuals : List ASTExpr) : Prop :=
  .visit (.expr (.funAppExpr node function actuals)) ∈ f.accept

/-- The constraints that a program calls for. -/
inductive ASTProgram.Flow (p : ASTProgram) : SetConstraint NodeId NodeId → Prop
  | function {f : ASTFunction} : f ∈ p.functions → Flow p (.elementof f.node f.decl.node)
  | assign {f : ASTFunction} {n : NodeId} {lhs rhs : ASTExpr} : f ∈ p.functions →
    .visit (.stmt (.assignStmt n lhs rhs)) ∈ f.accept →
    Flow p (.subseteq (p.denoted f rhs) (p.denoted f lhs))
  | actual {f g : ASTFunction} {n : NodeId} {e a : ASTExpr} {as : List ASTExpr} {d : ASTDeclNode}
    {i : ℕ} : f ∈ p.functions → f.HasCall n e as → g ∈ p.functions →
    g.formals.length = as.length → g.formals[i]? = some d → as[i]? = some a →
    Flow p (.conditional g.node (p.denoted f e) (p.denoted f a) d.node)
  | result {f g : ASTFunction} {n : NodeId} {e : ASTExpr} {as : List ASTExpr} : f ∈ p.functions →
    f.HasCall n e as → g ∈ p.functions → g.formals.length = as.length →
    Flow p (.conditional g.node (p.denoted f e) (p.denoted g g.ret.arg) n)

/-! ### What the visitor hands over -/

namespace CFAnalyzer

/-- The constraints of one call of the visitor in the scope of a function. -/
def handed (p : ASTProgram) (st : SymbolTable) (scope : NodeId) :
    VisitEvent → List (SetConstraint NodeId NodeId)
  | .visit (.expr (.funAppExpr n function actuals)) =>
    p.functions.flatMap (callTo st scope n function actuals)
  | .visit (.stmt (.assignStmt _ lhs rhs)) =>
    [.subseteq (st.canonical scope rhs) (st.canonical scope lhs)]
  | _ => []

variable {p : ASTProgram} {st : SymbolTable}

/-- A call that is made for no function leaves the scopes as they are. -/
theorem step_eq {ev : VisitEvent} (h : ¬ ev.OfFunction) (top : NodeId) (scopes : List NodeId)
    (calls : List (SetConstraint NodeId NodeId)) :
    step p st ⟨top :: scopes, calls⟩ ev =
      some ⟨top :: scopes, calls ++ handed p st top ev⟩ := by
  unfold step handed
  split
  · exact absurd trivial h
  · exact absurd trivial h
  · rfl
  · rfl
  · rename_i hcall hassign
    split
    next => exact absurd rfl (hcall _ _ _)
    next => exact absurd rfl (hassign _ _ _)
    next => rw [List.append_nil]

theorem foldlM_step_inner (top : NodeId) (scopes : List NodeId) :
    ∀ (evs : List VisitEvent) (calls : List (SetConstraint NodeId NodeId)),
      (∀ ev ∈ evs, ¬ ev.OfFunction) →
      evs.foldlM (step p st) ⟨top :: scopes, calls⟩ =
        some ⟨top :: scopes, calls ++ evs.flatMap (handed p st top)⟩
  | [], calls, _ => by
    rw [List.flatMap_nil, List.append_nil]
    rfl
  | ev :: evs, calls, h => by
    rw [List.foldlM_cons, step_eq (h ev List.mem_cons_self), List.flatMap_cons, ← List.append_assoc]
    exact foldlM_step_inner top scopes evs _ fun e he ↦ h e (List.mem_cons_of_mem ev he)

/-- The constraints of a function. -/
def ofFunction (p : ASTProgram) (st : SymbolTable) (f : ASTFunction) :
    List (SetConstraint NodeId NodeId) :=
  .elementof f.node f.decl.node :: f.innerEvents.flatMap (handed p st f.decl.node)

theorem foldlM_step_function (f : ASTFunction) (scopes : List NodeId)
    (calls : List (SetConstraint NodeId NodeId)) :
    f.accept.foldlM (step p st) ⟨scopes, calls⟩ = some ⟨scopes, calls ++ ofFunction p st f⟩ := by
  have hinner : f.innerEvents.foldlM (step p st)
      ⟨f.decl.node :: scopes, calls ++ [.elementof f.node f.decl.node]⟩ = _ :=
    foldlM_step_inner f.decl.node scopes f.innerEvents _ f.not_ofFunction_innerEvents
  rw [f.accept_eq]
  change (f.innerEvents ++ [VisitEvent.endVisit (.function f)]).foldlM (step p st)
    ⟨f.decl.node :: scopes, calls ++ [.elementof f.node f.decl.node]⟩ = _
  rw [List.foldlM_append, hinner, List.append_assoc]
  rfl

theorem foldlM_step_functions : ∀ (fs : List ASTFunction)
    (calls : List (SetConstraint NodeId NodeId)),
    (fs.flatMap ASTFunction.accept).foldlM (step p st) ⟨[], calls⟩ =
      some ⟨[], calls ++ fs.flatMap (ofFunction p st)⟩
  | [], calls => by
    rw [List.flatMap_nil, List.flatMap_nil, List.append_nil]
    rfl
  | f :: fs, calls => by
    rw [List.flatMap_cons, List.foldlM_append, foldlM_step_function, List.flatMap_cons,
      ← List.append_assoc]
    exact foldlM_step_functions fs _

/-- The stack of scopes is never empty where its top is looked at. -/
theorem analyze_eq (p : ASTProgram) (st : SymbolTable) :
    analyze p st = some (p.functions.flatMap (ofFunction p st)) := by
  rw [analyze, ASTProgram.accept, foldlM_step_functions]
  rfl

/-- The analysis looks up a variable as the program declares it. -/
theorem canonical_eq (h : st.Describes p) {f : ASTFunction} (hf : f ∈ p.functions) (e : ASTExpr) :
    st.canonical f.decl.node e = p.denoted f e := by
  cases e with
  | variableExpr n x =>
    rw [SymbolTable.canonical, ASTProgram.denoted]
    cases hd : f.localDecls.find? fun d ↦ d.name = x with
    | some d =>
      obtain ⟨hname, hmem⟩ : d.name = x ∧ d ∈ f.localDecls :=
        ⟨by simpa using List.find?_some hd, List.mem_of_find?_eq_some hd⟩
      rw [← hname, h.getLocal f hf d hmem]
      rfl
    | none =>
      have hlocal : st.getLocal x f.decl.node = none := by
        rw [Option.eq_none_iff_forall_ne_some]
        intro m hm
        obtain ⟨d, hmem, hname, -⟩ := h.of_getLocal f hf x m hm
        simpa [hname] using List.find?_eq_none.1 hd d hmem
      rw [hlocal, Option.none_or]
      cases hg : p.findFunctionByName x with
      | some g =>
        obtain ⟨hname, hmem⟩ : g.name = x ∧ g ∈ p.functions :=
          ⟨by simpa using List.find?_some hg, List.mem_of_find?_eq_some hg⟩
        rw [← hname, h.getFunction g hmem]
        rfl
      | none =>
        have hfun : st.getFunction x = none := by
          rw [Option.eq_none_iff_forall_ne_some]
          intro m hm
          obtain ⟨g, hmem, hname, -⟩ := h.of_getFunction x m hm
          simpa [hname] using List.find?_eq_none.1 hg g hmem
        rw [hfun]
        rfl
  | _ => rfl

theorem mem_callTo {scope n : NodeId} {e : ASTExpr} {as : List ASTExpr} {fn : ASTFunction}
    {c : SetConstraint NodeId NodeId} :
    c ∈ callTo st scope n e as fn ↔ fn.formals.length = as.length ∧
      ∃ (i : ℕ) (d : ASTDeclNode) (a : ASTExpr),
        fn.formals[i]? = some d ∧ as[i]? = some a ∧
        (c = .conditional fn.node (st.canonical scope e) (st.canonical scope a) d.node ∨
          c = .conditional fn.node (st.canonical scope e)
            (st.canonical fn.decl.node fn.ret.arg) n) := by
  unfold callTo
  split_ifs with hlen
  · rw [List.mem_flatMap]
    constructor
    · rintro ⟨⟨d, a⟩, hmem, hc⟩
      obtain ⟨i, hi⟩ := List.mem_iff_getElem?.1 hmem
      obtain ⟨hd, ha⟩ := List.getElem?_zip_eq_some.1 hi
      exact ⟨hlen, i, d, a, hd, ha, by simpa using hc⟩
    · rintro ⟨-, i, d, a, hd, ha, hc⟩
      refine ⟨(d, a), List.mem_iff_getElem?.2 ⟨i, List.getElem?_zip_eq_some.2 ⟨hd, ha⟩⟩, ?_⟩
      simpa using hc
  · exact iff_of_false List.not_mem_nil fun h ↦ hlen h.1

/-- The result of a call without arguments flows into the call. -/
inductive NullaryFlow (p : ASTProgram) : SetConstraint NodeId NodeId → Prop
  | result {f g : ASTFunction} {n : NodeId} {e : ASTExpr} : f ∈ p.functions → f.HasCall n e [] →
    g ∈ p.functions → g.formals = [] →
    NullaryFlow p (.conditional g.node (p.denoted f e) (p.denoted g g.ret.arg) n)

theorem visit_expr_mem_iff {f : ASTFunction} {e : ASTExpr} :
    VisitEvent.visit (.expr e) ∈ f.accept ↔ .visit (.expr e) ∈ f.innerEvents := by
  rw [f.accept_eq]
  simp

theorem visit_stmt_mem_iff {f : ASTFunction} {s : ASTStmt} :
    VisitEvent.visit (.stmt s) ∈ f.accept ↔ .visit (.stmt s) ∈ f.innerEvents := by
  rw [f.accept_eq]
  simp

theorem flow_of_mem_callTo (h : st.Describes p) {f g : ASTFunction} {n : NodeId} {e : ASTExpr}
    {as : List ASTExpr} {c : SetConstraint NodeId NodeId} (hf : f ∈ p.functions)
    (hcall : f.HasCall n e as) (hg : g ∈ p.functions) (hc : c ∈ callTo st f.decl.node n e as g) :
    p.Flow c := by
  obtain ⟨hlen, i, d, a, hd, ha, hc⟩ := mem_callTo.1 hc
  rw [canonical_eq h hf, canonical_eq h hf, canonical_eq h hg] at hc
  rcases hc with rfl | rfl
  · exact .actual hf hcall hg hlen hd ha
  · exact .result hf hcall hg hlen

/-- Only constraints that the program calls for are handed over. -/
theorem flow_of_mem (h : st.Describes p) {f : ASTFunction} (hf : f ∈ p.functions)
    {c : SetConstraint NodeId NodeId} (hc : c ∈ ofFunction p st f) : p.Flow c := by
  rcases List.mem_cons.1 hc with rfl | hc
  · exact .function hf
  obtain ⟨ev, hev, hc⟩ := List.mem_flatMap.1 hc
  unfold handed at hc
  split at hc
  next n e as =>
    obtain ⟨g, hg, hc⟩ := List.mem_flatMap.1 hc
    exact flow_of_mem_callTo h hf (visit_expr_mem_iff.2 hev) hg hc
  next n lhs rhs =>
    rw [List.mem_singleton.1 hc, canonical_eq h hf, canonical_eq h hf]
    exact .assign hf (visit_stmt_mem_iff.2 hev)
  next => cases hc

variable (st) in
/-- The constraints of a call are handed over. -/
theorem mem_of_mem_callTo {f g : ASTFunction} {n : NodeId} {e : ASTExpr} {as : List ASTExpr}
    {c : SetConstraint NodeId NodeId} (hf : f ∈ p.functions) (hcall : f.HasCall n e as)
    (hg : g ∈ p.functions) (hc : c ∈ callTo st f.decl.node n e as g) :
    c ∈ p.functions.flatMap (ofFunction p st) := by
  -- a call in the body is one of the events that the constraints come from
  refine List.mem_flatMap.2 ⟨f, hf, List.mem_cons_of_mem _ (List.mem_flatMap.2
    ⟨_, visit_expr_mem_iff.1 hcall, List.mem_flatMap.2 ⟨g, hg, hc⟩⟩)⟩

/-- The constraints that a program calls for are handed over, but for the results of calls without
arguments. -/
theorem flow_iff (h : st.Describes p) {c : SetConstraint NodeId NodeId} :
    p.Flow c ↔ c ∈ p.functions.flatMap (ofFunction p st) ∨ NullaryFlow p c := by
  constructor
  · intro hc
    cases hc with
    | function hf => exact Or.inl (List.mem_flatMap.2 ⟨_, hf, List.mem_cons_self⟩)
    | assign hf hev =>
      refine Or.inl (List.mem_flatMap.2 ⟨_, hf, List.mem_cons_of_mem _ (List.mem_flatMap.2
        ⟨_, visit_stmt_mem_iff.1 hev, ?_⟩)⟩)
      rw [handed, canonical_eq h hf, canonical_eq h hf]
      exact List.mem_singleton_self _
    | actual hf hcall hg hlen hd ha =>
      refine Or.inl (mem_of_mem_callTo st hf hcall hg
        (mem_callTo.2 ⟨hlen, _, _, _, hd, ha, Or.inl ?_⟩))
      rw [canonical_eq h hf, canonical_eq h hf]
    | @result f g n e as hf hcall hg hlen =>
      cases as with
      | nil => exact Or.inr (.result hf hcall hg (List.eq_nil_of_length_eq_zero hlen))
      | cons a as =>
        obtain ⟨d, ds, hds⟩ := List.exists_cons_of_length_eq_add_one hlen
        refine Or.inl (mem_of_mem_callTo st hf hcall hg (mem_callTo.2 ⟨hlen, 0, d, a, by rw [hds]; rfl, rfl,
          Or.inr ?_⟩))
        rw [canonical_eq h hf, canonical_eq h hg]
  · rintro (hc | ⟨hf, hcall, hg, hnil⟩)
    · obtain ⟨f, hf, hc⟩ := List.mem_flatMap.1 hc
      exact flow_of_mem h hf hc
    · exact .result hf hcall hg (by rw [hnil]; rfl)

/-- The result of a call without arguments is not handed over. -/
theorem NullaryFlow.not_mem {c : SetConstraint NodeId NodeId} (hc : NullaryFlow p c) :
    c ∉ p.functions.flatMap (ofFunction p st) := by
  obtain @⟨f, g, n, e, hf, hcall, -, -⟩ := hc
  have hvisit := p.mem_accept hf hcall
  intro hmem
  obtain ⟨f', hf', hmem⟩ := List.mem_flatMap.1 hmem
  rcases List.mem_cons.1 hmem with hmem | hmem
  · cases hmem
  obtain ⟨ev, hev, hmem⟩ := List.mem_flatMap.1 hmem
  unfold handed at hmem
  split at hmem
  next n' e' as =>
    obtain ⟨g', hg', hmem⟩ := List.mem_flatMap.1 hmem
    obtain ⟨-, i, d, a, hd, ha, hmem | hmem⟩ := mem_callTo.1 hmem
    · -- a formal is no application
      have hnode : n = d.node := by injection hmem
      have hformal := p.mem_accept hg' (ASTFunction.visit_formal (List.mem_of_getElem? hd))
      have heq := visit_inj (a := .declNode d) (b := .expr (.funAppExpr n e [])) hnode.symm
        p.distinct hformal hvisit
      cases heq
    · have hnode : n = n' := by injection hmem
      have heq := visit_inj (a := .expr (.funAppExpr n' e' as)) (b := .expr (.funAppExpr n e []))
        hnode.symm p.distinct (p.mem_accept hf' (visit_expr_mem_iff.2 hev)) hvisit
      cases heq
      cases ha
  next =>
    cases List.mem_singleton.1 hmem
  next => cases hmem

/-- The constraints handed to the solver are exactly those that the program calls for if and only if
there is no call without arguments or no function without formals. -/
theorem mem_analyze_iff (hb : SymbolTable.build p = .ok st) :
    ∃ calls, analyze p st = some calls ∧ ((∀ c, c ∈ calls ↔ p.Flow c) ↔
      ¬ ((∃ f ∈ p.functions, ∃ n e, f.HasCall n e []) ∧ ∃ g ∈ p.functions, g.formals = [])) := by
  refine ⟨_, analyze_eq p st, ?_⟩
  have hflow : ∀ c, p.Flow c ↔ _ := fun c ↦ flow_iff (SymbolTable.build_spec hb) (c := c)
  constructor
  · rintro hall ⟨⟨f, hf, n, e, hcall⟩, g, hg, hnil⟩
    have hnullary : NullaryFlow p _ := .result hf hcall hg hnil
    exact hnullary.not_mem ((hall _).2 ((hflow _).2 (Or.inr hnullary)))
  · intro hnone c
    rw [hflow]
    refine ⟨Or.inl, fun hc ↦ hc.resolve_right ?_⟩
    rintro ⟨hf, hcall, hg, hnil⟩
    exact hnone ⟨⟨_, hf, _, _, hcall⟩, _, hg, hnil⟩

end CFAnalyzer

/-- `f(x) { return x; } main() { return f(1); }` -/
def callOneProgram : ASTProgram where
  functions :=
    [⟨0, ⟨1, "f"⟩, [⟨2, "x"⟩], [], [], ⟨3, .variableExpr 4 "x"⟩, false⟩,
      ⟨5, ⟨6, "main"⟩, [], [], [],
        ⟨7, .funAppExpr 8 (.variableExpr 9 "f") [.numberExpr 10 1]⟩, false⟩]
  distinct := by decide

theorem CFAnalyzer.mem_analyze_callOne : ∃ st calls, SymbolTable.build callOneProgram = .ok st ∧
    CFAnalyzer.analyze callOneProgram st = some calls ∧
    ((∀ c, c ∈ calls ↔ callOneProgram.Flow c) ↔
      ¬ ((∃ f ∈ callOneProgram.functions, ∃ n e, f.HasCall n e []) ∧
        ∃ g ∈ callOneProgram.functions, g.formals = [])) := by
  obtain ⟨calls, hcalls, hiff⟩ := CFAnalyzer.mem_analyze_iff (p := callOneProgram) rfl
  exact ⟨_, calls, rfl, hcalls, hiff⟩

/-- `f() { return f; } main() { return f(); }` -/
def callNoneProgram : ASTProgram where
  functions :=
    [⟨0, ⟨1, "f"⟩, [], [], [], ⟨2, .variableExpr 3 "f"⟩, false⟩,
      ⟨4, ⟨5, "main"⟩, [], [], [], ⟨6, .funAppExpr 7 (.variableExpr 8 "f") []⟩, false⟩]
  distinct := by decide

/-- The result of `f()` is called for, and not handed over. -/
theorem CFAnalyzer.not_mem_analyze_callNone : ∃ st calls,
    SymbolTable.build callNoneProgram = .ok st ∧
    CFAnalyzer.analyze callNoneProgram st = some calls ∧
    callNoneProgram.Flow (.conditional 0 1 1 7) ∧ .conditional 0 1 1 7 ∉ calls := by
  refine ⟨_, [.elementof 0 1, .elementof 4 5], rfl, rfl, ?_, by simp⟩
  have hcall : (callNoneProgram.functions.get ⟨1, by decide⟩).HasCall 7 (.variableExpr 8 "f") [] := by
    simp [ASTFunction.HasCall, callNoneProgram, ASTFunction.accept, ASTReturnStmt.accept,
      ASTExpr.accept, visiting]
  exact .result (f := callNoneProgram.functions.get ⟨1, by decide⟩)
    (g := callNoneProgram.functions.get ⟨0, by decide⟩) (List.get_mem _ _) hcall
    (List.get_mem _ _) rfl

end Sipc
