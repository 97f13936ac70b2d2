import Sipc.Evaluation.CellRules
import Sipc.Semantic.Cfa.CallGraphBuilder
import Sipc.Semantic.Types.TypeInference

/-!
# The calls of a run

The analysis has constraints for the flow of functions through assignments, actuals and the results
of applications with arguments, and none for pointers, fields, elements, ternaries, the items of loops
and the results of applications without arguments (`Event.IsAnalysed`). A run in which functions take
only the ways it knows keeps every function in the set of its variable (`flowRule`), and all calls of
the run are in the call graph (`CallGraphObject.coversCalls`).
-/

set_option autoImplicit false
set_option relaxedAutoImplicit false

namespace Sipc

open Library

/-- The analysis has a variable for the value of the expression. -/
def ASTExpr.IsAnalysed : ASTExpr → Prop
  | .deRefExpr _ _ | .accessExpr _ _ _ | .indexingExpr _ _ _ | .ternaryExpr _ _ _ _
  | .funAppExpr _ _ [] => False
  | _ => True

/-- A function value goes only where a constraint of the analysis says. -/
def Event.IsAnalysed : Event → Prop
  | .evaluated e v => v.function? = none ∨ e.IsAnalysed
  | .assigned lhs owner v => v.function? = none ∨ owner = none ∨ ∃ n x, lhs = .variableExpr n x
  | .iterated _ owner v => v.function? = none ∨ owner = none
  | _ => True

/-- The call graph has the call, for the application and for the function it is in. -/
def Event.IsInCallGraph (p : ASTProgram) (cg : CallGraphObject) : Event → Prop
  | .called n caller callee => ∃ f ∈ p.functions, ∃ g ∈ p.functions, f.decl.node = caller ∧
    g.decl.node = callee ∧ g.node ∈ (cg.getCalledFuns n).1 ∧ g.node ∈ cg.getCallees f.node
  | _ => True

/-! ### Function values and the variables of the analysis -/

section Flow

variable (p : ASTProgram) (S : NodeId → NodeId → Prop)

/-- If the value is a function, it is in the set of the variable `x`. -/
def Value.FlowsTo (v : Value) (x : NodeId) : Prop :=
  ∀ g, v.function? = some g → ∃ fn ∈ p.functions, fn.decl.node = g ∧ S x fn.node

/-- The cell of a variable holds only functions of its set. -/
def flowRule : CellRule (Option NodeId) where
  good _ t c := c.owner = t ∧ ∀ x v, t = some x → c.content = some v → v.FlowsTo p S x
  mono _ h := h

/-- What the solution says of a call. -/
def Event.FollowsFlow : Event → Prop
  | .called n caller callee => ∃ f ∈ p.functions, ∃ g ∈ p.functions, f.decl.node = caller ∧
    g.decl.node = callee ∧ ∃ e as, f.HasCall n e as ∧ S (p.denoted f e) g.node
  | _ => True

def flowGuarantee : Guarantee Memory Event Failure (Layout (Option NodeId)) :=
  (flowRule p S).guarantee Event.IsAnalysed (Event.FollowsFlow p S) fun _ ↦ True

/-- The names of a scope lead to the cells of their declarations. -/
structure ScopeFlows (w : Layout (Option NodeId)) (f : ASTFunction) (sc : Scope) : Prop where
  function : sc.function = f.decl.node
  lookup : ∀ n x, f.Visits (.expr (.variableExpr n x)) →
    ∃ a, sc.names.lookup x = some a ∧ w.cells[a]? = some (some (p.denoted f (.variableExpr n x)))
  functions : ∀ (i : ℕ) (g : ASTFunction), p.functions[i]? = some g →
    w.cells[i]? = some (some g.decl.node)

/-- The sets solve the constraints that the analysis has. -/
structure SolvesFlow : Prop where
  function : ∀ f ∈ p.functions, S f.decl.node f.node
  assign : ∀ {f : ASTFunction} {n : NodeId} {lhs rhs : ASTExpr}, f ∈ p.functions →
    f.Visits (.stmt (.assignStmt n lhs rhs)) → ∀ g, S (p.denoted f rhs) g → S (p.denoted f lhs) g
  actual : ∀ {f g : ASTFunction} {n : NodeId} {e a : ASTExpr} {as : List ASTExpr} {d : ASTDeclNode}
    {i : ℕ}, f ∈ p.functions → f.HasCall n e as → g ∈ p.functions →
    g.formals.length = as.length → g.formals[i]? = some d → as[i]? = some a →
    S (p.denoted f e) g.node → ∀ h, S (p.denoted f a) h → S d.node h
  result : ∀ {f g : ASTFunction} {n : NodeId} {e : ASTExpr} {as : List ASTExpr},
    f ∈ p.functions → f.HasCall n e as → as ≠ [] → g ∈ p.functions →
    g.formals.length = as.length → S (p.denoted f e) g.node →
    ∀ h, S (p.denoted g g.ret.arg) h → S n h

/-- What one level of evaluation keeps. -/
structure EvaluatorsFlow (ev : Evaluators) : Prop where
  expr : ∀ {w : Layout (Option NodeId)} {f : ASTFunction} {sc : Scope} {e : ASTExpr},
    f ∈ p.functions → ScopeFlows p w f sc → f.Visits (.expr e) →
    (flowGuarantee p S).Holds w (ev.expr sc e) fun _ v ↦ v.FlowsTo p S (p.denoted f e)
  stmt : ∀ {w : Layout (Option NodeId)} {f : ASTFunction} {sc : Scope} {s : ASTStmt},
    f ∈ p.functions → ScopeFlows p w f sc → f.Visits (.stmt s) →
    (flowGuarantee p S).Holds w (ev.stmt sc s) fun _ _ ↦ True
  range : ∀ {w : Layout (Option NodeId)} {f : ASTFunction} {sc : Scope} {a : ℕ} {stop step : Word}
    {body : ASTStmt}, f ∈ p.functions → ScopeFlows p w f sc → f.Visits (.stmt body) →
    (flowGuarantee p S).Holds w (ev.range sc a stop step body) fun _ _ ↦ True

end Flow

section

variable {p : ASTProgram} {S : NodeId → NodeId → Prop} {w : Layout (Option NodeId)}

theorem ScopeFlows.mono {w' : Layout (Option NodeId)} {f : ASTFunction} {sc : Scope}
    (h : ScopeFlows p w f sc) (hle : w ≤ w') : ScopeFlows p w' f sc where
  function := h.function
  lookup n x hx := by
    obtain ⟨a, ha, hw⟩ := h.lookup n x hx
    exact ⟨a, ha, Layout.get_mono hle hw⟩
  functions i g hi := Layout.get_mono hle (h.functions i g hi)

theorem Value.flowsTo_of_function?_eq_none {v : Value} (h : v.function? = none) (x : NodeId) :
    v.FlowsTo p S x := by
  intro g hg
  rw [h] at hg
  cases hg

/-! ### The steps of an evaluation -/

theorem holds_expectFlows {α : Type} {k : Value → Option α} {v : Value} :
    (flowGuarantee p S).Holds w (expect k v) fun w' x ↦ w' = w ∧ k v = some x :=
  Guarantee.holds_orFail (fun _ h ↦ ⟨rfl, h⟩) fun _ ↦ trivial

theorem holds_loadAny (a : ℕ) :
    (flowGuarantee p S).Holds w (Memory.load a) fun _ _ ↦ True :=
  CellRule.holds_load trivial fun _ _ _ _ _ _ ↦ trivial

/-- The cell of a variable has values of its set. -/
theorem holds_loadFlows {a : ℕ} {x : NodeId} (ha : w.cells[a]? = some (some x)) :
    (flowGuarantee p S).Holds w (Memory.load a) fun _ v ↦ v.FlowsTo p S x := by
  refine CellRule.holds_load trivial fun t c v ht hgood hv ↦ ?_
  rw [ha] at ht
  exact hgood.2 x v (Option.some.inj ht).symm hv

/-- A value may be stored where it is allowed to flow, and anywhere if it is no function. -/
theorem holds_storeFlows {a : ℕ} {v : Value}
    (h : ∀ x, w.cells[a]? = some (some x) → v.FlowsTo p S x) :
    (flowGuarantee p S).Holds w (Memory.store a v) fun _ _ ↦ True := by
  refine CellRule.holds_store (fun t c ht hgood ↦ ⟨hgood.1, fun x v' hx hv' ↦ ?_⟩) trivial
  obtain rfl := Option.some.inj hv'
  exact h x (by rw [ht, hx])

theorem holds_storeInt (a : ℕ) (x : Word) :
    (flowGuarantee p S).Holds w (Memory.store a (.int x)) fun _ _ ↦ True :=
  holds_storeFlows fun _ _ ↦ Value.flowsTo_of_function?_eq_none rfl _

/-- New cells that belong to no variable. -/
theorem holds_allocateFlows (vs : List (Option Value)) :
    (flowGuarantee p S).Holds w (Memory.allocate (vs.map fun v ↦ ⟨none, v⟩)) fun _ _ ↦ True := by
  refine (CellRule.holds_allocate (l := vs.map fun _ ↦ none) ?_).mono fun _ _ _ _ ↦ trivial
  refine List.forall₂_map_left_iff.2 (List.forall₂_map_right_iff.2 (List.forall₂_same.2 ?_))
  intro v _
  exact ⟨rfl, fun x v' hx _ ↦ by cases hx⟩

theorem holds_newArrayFlows (len : Word) (vs : List Value) :
    (flowGuarantee p S).Holds w (newArray len vs) fun _ v ↦ v.function? = none := by
  have hcells := holds_allocateFlows (p := p) (S := S) (w := w) (none :: vs.map some)
  rw [List.map_cons, List.map_map] at hcells
  exact hcells.bind fun _ _ _ _ ↦ Guarantee.holds_pure rfl

/-- The cell of a variable is owned by it. -/
theorem holds_ownerFlows (a : ℕ) :
    (flowGuarantee p S).Holds w (Memory.owner a) fun w' o ↦ w' = w ∧
      ∀ t, w.cells[a]? = some t → o = t := by
  refine CellRule.holds_owner (fun hnone ↦ ⟨rfl, fun t ht ↦ ?_⟩) fun t c ht hgood ↦
    ⟨rfl, fun t' ht' ↦ ?_⟩
  · rw [hnone] at ht
    cases ht
  · rw [hgood.1]
    exact Option.some.inj (ht.symm.trans ht')

theorem holds_applyFlows (op : BinaryOp) (l r : Value) :
    (flowGuarantee p S).Holds w (op.apply l r) fun _ v ↦ v.function? = none := by
  have hbools : ∀ c : Bool → Bool → Bool, (flowGuarantee p S).Holds w (do
      let x ← expect Value.bool? l
      let y ← expect Value.bool? r
      return Value.bool (c x y)) fun _ v ↦ v.function? = none := fun c ↦
    holds_expectFlows.bind fun _ x _ _ ↦ holds_expectFlows.bind fun _ y _ _ ↦
      Guarantee.holds_pure rfl
  have hints : (∀ x y w', (flowGuarantee p S).Holds w' (op.applyInts x y) fun _ v ↦
      v.function? = none) → (flowGuarantee p S).Holds w (do
      let x ← expect Value.int? l
      let y ← expect Value.int? r
      op.applyInts x y) fun _ v ↦ v.function? = none := fun h ↦
    holds_expectFlows.bind fun _ x _ _ ↦ holds_expectFlows.bind fun _ y _ _ ↦ h x y _
  cases op with
  | eq | ne => exact Guarantee.holds_pure rfl
  | and => exact hbools fun x y ↦ x && y
  | or => exact hbools fun x y ↦ x || y
  | add | sub | mul | gt | ge | lt | le => exact hints fun _ _ _ ↦ Guarantee.holds_pure rfl
  | div | mod =>
    refine hints fun x y w' ↦ ?_
    unfold BinaryOp.applyInts
    dsimp only
    split_ifs
    · exact Guarantee.holds_fail trivial
    · exact Guarantee.holds_pure rfl

theorem holds_dereferenceFlows (v : Value) :
    (flowGuarantee p S).Holds w v.dereference fun _ _ ↦ True := by
  cases v with
  | pointer a => exact Guarantee.holds_pure trivial
  | _ => exact Guarantee.holds_fail trivial

/-- A solution of the constraints that the visitor hands over. -/
theorem SolvesFlow.of_isSolution {st : SymbolTable} (h : st.Describes p)
    (hS : SetConstraint.IsSolution (p.functions.flatMap (CFAnalyzer.ofFunction p st)) S) :
    SolvesFlow p S where
  function f hf := hS (.elementof f.node f.decl.node)
    (List.mem_flatMap.2 ⟨f, hf, List.mem_cons_self⟩)
  assign {f n lhs rhs} hf hs := by
    have hmem : .subseteq (st.canonical f.decl.node rhs) (st.canonical f.decl.node lhs) ∈
        p.functions.flatMap (CFAnalyzer.ofFunction p st) :=
      List.mem_flatMap.2 ⟨f, hf, List.mem_cons_of_mem _ (List.mem_flatMap.2
        ⟨_, CFAnalyzer.visit_stmt_mem_iff.1 hs, List.mem_singleton_self _⟩)⟩
    rw [CFAnalyzer.canonical_eq h hf, CFAnalyzer.canonical_eq h hf] at hmem
    exact hS _ hmem
  actual {f g n e a as d i} hf hcall hg hlen hd ha := by
    have hmem := CFAnalyzer.mem_of_mem_callTo st hf hcall hg
      (CFAnalyzer.mem_callTo.2 ⟨hlen, i, d, a, hd, ha, .inl rfl⟩)
    rw [CFAnalyzer.canonical_eq h hf, CFAnalyzer.canonical_eq h hf] at hmem
    exact hS _ hmem
  result {f g n e as} hf hcall hne hg hlen := by
    obtain ⟨a, as', rfl⟩ := List.exists_cons_of_ne_nil hne
    obtain ⟨d, ds, hds⟩ := List.exists_cons_of_length_eq_add_one hlen
    have hmem := CFAnalyzer.mem_of_mem_callTo st hf hcall hg
      (CFAnalyzer.mem_callTo.2 ⟨hlen, 0, d, a, by rw [hds]; rfl, rfl, .inr rfl⟩)
    rw [CFAnalyzer.canonical_eq h hf, CFAnalyzer.canonical_eq h hg] at hmem
    exact hS _ hmem

/-- The declarations of two functions are two nodes. -/
theorem SymbolTable.Describes.function_inj {st : SymbolTable} (h : st.Describes p)
    {f g : ASTFunction} (hf : f ∈ p.functions) (hg : g ∈ p.functions)
    (hnode : f.decl.node = g.decl.node) : f = g := by
  have hvisit : ∀ fn : ASTFunction, VisitEvent.visit (.declNode fn.decl) ∈ fn.accept := fun fn ↦
    (ASTFunction.visits_self fn).child List.mem_cons_self
  have heq := visit_inj (a := .declNode f.decl) (b := .declNode g.decl) hnode p.distinct
    (p.mem_accept hf (hvisit f)) (p.mem_accept hg (hvisit g))
  have hdecl : f.decl = g.decl := by injection heq
  exact List.inj_on_of_nodup_map h.names_nodup hf hg (congrArg ASTDeclNode.name hdecl)

/-! ### Expressions -/

section Expressions

variable (hS : SolvesFlow p S) {ev : Evaluators} (hev : EvaluatorsFlow p S ev) {f : ASTFunction}
  (hf : f ∈ p.functions) {sc : Scope} (hsc : ScopeFlows p w f sc)

include hev hf hsc

theorem holds_lvalueFlows {e : ASTExpr} (he : f.Visits (.expr e)) :
    (flowGuarantee p S).Holds w (lvalue ev sc e) fun w' a ↦ ∀ n x, e = .variableExpr n x →
      w'.cells[a]? = some (some (p.denoted f e)) := by
  cases e with
  | variableExpr n x =>
    obtain ⟨a, ha, hw⟩ := hsc.lookup n x he
    rw [lvalue, ha]
    exact Guarantee.holds_pure fun _ _ _ ↦ hw
  | deRefExpr n ptr =>
    rw [lvalue]
    refine (hev.expr hf hsc (he.subExpr List.mem_cons_self)).bind fun w₁ v _ _ ↦ ?_
    exact (holds_dereferenceFlows v).mono fun _ _ _ _ _ _ h ↦ by cases h
  | accessExpr n record field =>
    rw [lvalue]
    refine (hev.expr hf hsc (he.subExpr List.mem_cons_self)).bind fun w₁ v _ _ ↦ ?_
    refine holds_expectFlows.bind fun w₂ fields _ _ ↦ ?_
    exact Guarantee.holds_orFail (fun _ _ _ _ h ↦ by cases h) fun _ ↦ trivial
  | indexingExpr n arr idx =>
    rw [lvalue]
    refine (hev.expr hf hsc (he.subExpr List.mem_cons_self)).bind fun w₁ v hle₁ _ ↦ ?_
    refine holds_expectFlows.bind fun w₂ a hle₂ _ ↦ ?_
    refine (hev.expr hf (hsc.mono (hle₁.trans hle₂))
      (he.subExpr (List.mem_cons_of_mem _ List.mem_cons_self))).bind fun w₃ v' _ _ ↦ ?_
    refine holds_expectFlows.bind fun w₄ i _ _ ↦ ?_
    split_ifs
    · exact Guarantee.holds_pure fun _ _ h ↦ by cases h
    · exact Guarantee.holds_fail trivial
  | _ => exact Guarantee.holds_fail trivial

theorem holds_mapMFlows {es : List ASTExpr} (hes : ∀ e ∈ es, f.Visits (.expr e)) :
    (flowGuarantee p S).Holds w (es.mapM (ev.expr sc)) fun _ vs ↦
      List.Forall₂ (fun e (v : Value) ↦ v.FlowsTo p S (p.denoted f e)) es vs :=
  Guarantee.holds_mapM (Q := fun _ e (v : Value) ↦ v.FlowsTo p S (p.denoted f e))
    (fun _ _ _ _ _ hv ↦ hv) es w fun e he _ hle ↦ hev.expr hf (hsc.mono hle) (hes e he)

omit hf hsc in
/-- The result of a call is in the set of what the function returns. -/
theorem holds_invokeFlows {st : SymbolTable} (h : st.Describes p) {g : ASTFunction}
    (hg : g ∈ p.functions) {vs : List Value} (hlen : g.formals.length = vs.length)
    (hfunctions : ∀ (i : ℕ) (g : ASTFunction), p.functions[i]? = some g →
      w.cells[i]? = some (some g.decl.node))
    (hvs : ∀ (i : ℕ) (d : ASTDeclNode) (v : Value), g.formals[i]? = some d → vs[i]? = some v →
      v.FlowsTo p S d.node) :
    (flowGuarantee p S).Holds w (invoke p ev g vs) fun _ v ↦
      v.FlowsTo p S (p.denoted g g.ret.arg) := by
  unfold invoke
  refine (CellRule.holds_allocate (l := g.localDecls.map fun d ↦ some d.node)
    (forall₂_frame _ hlen ?_ ?_)).bind fun w₁ base hle hcells ↦ ?_
  · intro i d v hd hv
    refine ⟨rfl, fun x v' hx hv' ↦ ?_⟩
    obtain rfl := Option.some.inj hx
    obtain rfl := Option.some.inj hv'
    exact hvs i d v hd hv
  · exact fun d ↦ ⟨rfl, fun x v' _ hv' ↦ by cases hv'⟩
  have hsc : ScopeFlows p w₁ g
      ⟨g.decl.node, (g.localDecls.map ASTDeclNode.name).zipIdx base ++ p.globals⟩ := by
    refine ⟨rfl, fun n x hx ↦ ?_, fun i g hi ↦ Layout.get_mono hle (hfunctions i g hi)⟩
    refine exists_lookup_scope h hg hx (P := fun a d ↦ w₁.cells[a]? = some (some d))
      (fun i d hd ↦ hcells i _ ?_) fun i g hi ↦ Layout.get_mono hle (hfunctions i g hi)
    rw [List.getElem?_map, hd]
    rfl
  refine (Guarantee.holds_forM g.body w₁ fun s hs w₂ hle₂ ↦
    hev.stmt hg (hsc.mono hle₂) (ASTFunction.visits_body hs)).bind fun w₂ _ hle₂ _ ↦ ?_
  refine (hev.expr hg (hsc.mono hle₂) g.visits_ret).bind fun w₃ v _ hv ↦ ?_
  exact (Guarantee.holds_emit (Q := fun _ _ ↦ True) fun _ ↦ ⟨trivial, trivial⟩).bind
    fun _ _ _ _ ↦ Guarantee.holds_pure hv

include hS in
/-- A call is of a function in the set of what is applied. -/
theorem holds_applicationFlows {st : SymbolTable} (h : st.Describes p) {n : NodeId}
    {function : ASTExpr} {actuals : List ASTExpr}
    (he : f.Visits (.expr (.funAppExpr n function actuals))) :
    (flowGuarantee p S).Holds w (evalExpr p ev sc (.funAppExpr n function actuals)) fun _ v ↦
      (Event.evaluated (.funAppExpr n function actuals) v).IsAnalysed → v.FlowsTo p S n := by
  rw [evalExpr]
  refine (hev.expr hf hsc (he.subExpr List.mem_cons_self)).bind fun w₁ v hle₁ hv ↦ ?_
  refine (holds_mapMFlows hev hf (hsc.mono hle₁) fun e hmem ↦
    he.subExpr (List.mem_cons_of_mem _ hmem)).bind fun w₂ vs hle₂ hvs ↦ ?_
  have hsc₂ := (hsc.mono hle₁).mono hle₂
  refine (Guarantee.holds_orFail (Q := fun w' g ↦ w' = w₂ ∧ g ∈ p.functions ∧
    g.formals.length = vs.length ∧ S (p.denoted f function) g.node) (fun g hg ↦ ?_)
      fun _ ↦ trivial).bind ?_
  · obtain ⟨decl, hdecl, hfind⟩ := Option.bind_eq_some_iff.1 hg
    obtain ⟨fn, hfn, rfl, hset⟩ := hv decl hdecl
    have hfound := List.find?_some hfind
    rw [decide_eq_true_eq] at hfound
    have hmem := List.mem_of_find?_eq_some hfind
    obtain rfl := h.function_inj hmem hfn hfound.1
    exact ⟨rfl, hmem, hfound.2, hset⟩
  · rintro w' g - ⟨rfl, hg, hlen, hset⟩
    refine (Guarantee.holds_emit (Q := fun w'' _ ↦ w'' = w') fun _ ↦ ⟨?_, rfl⟩).bind ?_
    · exact ⟨f, hf, g, hg, hsc₂.function.symm, rfl, function, actuals, he, hset⟩
    rintro w'' ⟨⟩ - rfl
    have hlen' : g.formals.length = actuals.length := by rw [hlen, hvs.length_eq]
    refine (holds_invokeFlows hev h hg hlen hsc₂.functions fun i d v hd hv ↦ ?_).mono
      fun _ v _ hv hmeets ↦ ?_
    · -- an actual flows to its formal
      obtain ⟨hvi, rfl⟩ := List.getElem?_eq_some_iff.1 hv
      have hai : i < actuals.length := hvs.length_eq ▸ hvi
      have hactual := hvs.get hai hvi
      intro k hk
      obtain ⟨fn, hfn, hdecl, hflow⟩ := hactual k hk
      exact ⟨fn, hfn, hdecl, hS.actual hf he hg hlen' hd (List.getElem?_eq_getElem hai) hset _ hflow⟩
    · cases actuals with
      | nil => exact Value.flowsTo_of_function?_eq_none (hmeets.resolve_right id) n
      | cons a as =>
        intro k hk
        obtain ⟨fn, hfn, hdecl, hflow⟩ := hv k hk
        exact ⟨fn, hfn, hdecl, hS.result hf he (List.cons_ne_nil a as) hg hlen' hset _ hflow⟩

include hS in
/-- A function value is in the set of its expression, if the analysis has one. -/
theorem holds_evalExprFlows {st : SymbolTable} (h : st.Describes p) {e : ASTExpr}
    (he : f.Visits (.expr e)) :
    (flowGuarantee p S).Holds w (evalExpr p ev sc e) fun _ v ↦
      (Event.evaluated e v).IsAnalysed → v.FlowsTo p S (p.denoted f e) := by
  have hsub : ∀ {w' : Layout (Option NodeId)} {c : ASTExpr}, w ≤ w' → c ∈ e.subExprs →
      (flowGuarantee p S).Holds w' (ev.expr sc c) fun _ v ↦ v.FlowsTo p S (p.denoted f c) :=
    fun hle hmem ↦ hev.expr hf (hsc.mono hle) (he.subExpr hmem)
  -- most values are no functions
  have hother : ∀ {v : Value}, v.function? = none →
      (Event.evaluated e v).IsAnalysed → v.FlowsTo p S (p.denoted f e) :=
    fun hv _ ↦ Value.flowsTo_of_function?_eq_none hv _
  -- the analysis has no set for what is read through a pointer, from a record or from an array
  have hcell : ¬ e.IsAnalysed → (flowGuarantee p S).Holds w (do
      let a ← lvalue ev sc e
      Memory.load a) fun _ v ↦
        (Event.evaluated e v).IsAnalysed → v.FlowsTo p S (p.denoted f e) := fun hnot ↦
    (holds_lvalueFlows hev hf hsc he).bind fun w₁ a _ _ ↦ (holds_loadAny a).mono
      fun _ v _ _ hmeets ↦ hother (hmeets.resolve_right hnot) hmeets
  cases e with
  | numberExpr n val => exact Guarantee.holds_pure (hother rfl)
  | boolExpr n val => exact Guarantee.holds_pure (hother rfl)
  | inputExpr n =>
    exact (CellRule.holds_read (Q := fun _ _ ↦ True) fun _ ↦ trivial).bind fun _ _ _ _ ↦
      Guarantee.holds_pure (hother rfl)
  | nullExpr n => exact Guarantee.holds_pure (hother rfl)
  | variableExpr n x =>
    refine (holds_lvalueFlows hev hf hsc he).bind fun w₁ a _ ha ↦ ?_
    exact (holds_loadFlows (ha n x rfl)).mono fun _ _ _ hv _ ↦ hv
  | deRefExpr n ptr => exact hcell id
  | accessExpr n record field => exact hcell id
  | indexingExpr n arr idx => exact hcell id
  | binaryExpr n op left right =>
    refine (hsub le_rfl List.mem_cons_self).bind fun w₁ l hle₁ _ ↦ ?_
    refine (hsub hle₁ (List.mem_cons_of_mem _ List.mem_cons_self)).bind fun w₂ r _ _ ↦ ?_
    exact (holds_applyFlows op l r).mono fun _ _ _ hv ↦ hother hv
  | notExpr n arg =>
    refine (hsub le_rfl List.mem_cons_self).bind fun w₁ v _ _ ↦ ?_
    exact holds_expectFlows.bind fun _ _ _ _ ↦ Guarantee.holds_pure (hother rfl)
  | negExpr n arg =>
    refine (hsub le_rfl List.mem_cons_self).bind fun w₁ v _ _ ↦ ?_
    exact holds_expectFlows.bind fun _ _ _ _ ↦ Guarantee.holds_pure (hother rfl)
  | funAppExpr n function actuals => exact holds_applicationFlows hS hev hf hsc h he
  | allocExpr n initializer =>
    refine (hsub le_rfl List.mem_cons_self).bind fun w₁ v _ _ ↦ ?_
    exact (holds_allocateFlows [some v]).bind fun _ _ _ _ ↦ Guarantee.holds_pure (hother rfl)
  | refExpr n var =>
    exact (holds_lvalueFlows hev hf hsc (he.subExpr List.mem_cons_self)).bind fun _ _ _ _ ↦
      Guarantee.holds_pure (hother rfl)
  | recordExpr n fields =>
    refine (Guarantee.holds_mapM (Q := fun _ _ _ ↦ True) (fun _ _ _ _ _ _ ↦ trivial) fields w
      fun fe hfe _ hle ↦ (hsub hle (List.mem_map_of_mem hfe)).mono fun _ _ _ _ ↦ trivial).bind
        fun w₁ vs _ _ ↦ ?_
    have hcells := holds_allocateFlows (p := p) (S := S) (w := w₁) (none :: vs.map some)
    rw [List.map_cons, List.map_map] at hcells
    exact hcells.bind fun _ _ _ _ ↦ Guarantee.holds_pure (hother rfl)
  | ternaryExpr n c t e =>
    refine (hsub le_rfl List.mem_cons_self).bind fun w₁ v hle₁ _ ↦ ?_
    refine holds_expectFlows.bind fun w₂ b hle₂ _ ↦ ?_
    have hbranch : ∀ c' ∈ [t, e], (flowGuarantee p S).Holds w₂ (ev.expr sc c') fun _ v ↦
        (Event.evaluated (.ternaryExpr n c t e) v).IsAnalysed →
          v.FlowsTo p S (p.denoted f (.ternaryExpr n c t e)) := fun c' hc' ↦
      (hsub (hle₁.trans hle₂) (List.mem_cons_of_mem _ hc')).mono fun _ _ _ _ hmeets ↦
        hother (hmeets.resolve_right id) hmeets
    split_ifs
    · exact hbranch t List.mem_cons_self
    · exact hbranch e (List.mem_cons_of_mem _ List.mem_cons_self)
  | arrayExpr n elements =>
    refine (holds_mapMFlows hev hf hsc fun e (hmem : e ∈ elements) ↦ he.subExpr hmem).bind
      fun w₁ vs _ _ ↦ ?_
    exact (holds_newArrayFlows _ vs).mono fun _ _ _ hv ↦ hother hv
  | arrayOfExpr n e1 e2 =>
    refine (hsub le_rfl List.mem_cons_self).bind fun w₁ v hle₁ _ ↦ ?_
    refine holds_expectFlows.bind fun w₂ len hle₂ _ ↦ ?_
    refine (holds_mapMFlows hev hf (hsc.mono (hle₁.trans hle₂)) fun e hmem ↦ ?_).bind
      fun w₃ vs _ _ ↦ (holds_newArrayFlows _ vs).mono fun _ _ _ hv ↦ hother hv
    rw [List.eq_of_mem_replicate hmem]
    exact he.subExpr (List.mem_cons_of_mem _ List.mem_cons_self)
  | arrayLenExpr n ptr =>
    refine (hsub le_rfl List.mem_cons_self).bind fun w₁ v _ _ ↦ ?_
    exact holds_expectFlows.bind fun _ _ _ _ ↦ Guarantee.holds_pure (hother rfl)

/-! ### Statements -/

include hS in
/-- A statement keeps the functions in the sets of their variables. -/
theorem holds_execStmtFlows {s : ASTStmt} (hs : f.Visits (.stmt s)) :
    (flowGuarantee p S).Holds w (execStmt ev sc s) fun _ _ ↦ True := by
  have hexpr : ∀ {w' : Layout (Option NodeId)} {e : ASTExpr}, w ≤ w' →
      .expr e ∈ s.getChildren → (flowGuarantee p S).Holds w' (ev.expr sc e) fun _ v ↦
        v.FlowsTo p S (p.denoted f e) :=
    fun hle hmem ↦ hev.expr hf (hsc.mono hle) (hs.child hmem)
  have hstmt : ∀ {w' : Layout (Option NodeId)} {s' : ASTStmt}, w ≤ w' →
      .stmt s' ∈ s.getChildren → (flowGuarantee p S).Holds w' (ev.stmt sc s') fun _ _ ↦ True :=
    fun hle hmem ↦ hev.stmt hf (hsc.mono hle) (hs.child hmem)
  have hlvalue : ∀ {e : ASTExpr}, .expr e ∈ s.getChildren →
      (flowGuarantee p S).Holds w (lvalue ev sc e) fun w' a ↦ ∀ n x, e = .variableExpr n x →
        w'.cells[a]? = some (some (p.denoted f e)) :=
    fun hmem ↦ holds_lvalueFlows hev hf hsc (hs.child hmem)
  cases s with
  | assignStmt n lhs rhs =>
    rw [execStmt]
    refine (hlvalue List.mem_cons_self).bind fun w₁ a hle₁ ha ↦ ?_
    refine (hexpr hle₁ (List.mem_cons_of_mem _ List.mem_cons_self)).bind fun w₂ v hle₂ hv ↦ ?_
    refine (holds_ownerFlows a).bind ?_
    rintro w' owner - ⟨rfl, howner⟩
    refine (Guarantee.holds_emit (Q := fun w'' _ ↦ w'' = w' ∧
      (Event.assigned lhs owner v).IsAnalysed) fun hmeets ↦ ⟨trivial, rfl, hmeets⟩).bind ?_
    rintro w'' ⟨⟩ - ⟨rfl, hmeets⟩
    refine holds_storeFlows fun x hx ↦ ?_
    rcases hmeets with hnone | hnone | ⟨m, y, rfl⟩
    · exact Value.flowsTo_of_function?_eq_none hnone x
    · rw [howner _ hx] at hnone
      cases hnone
    · -- the variable of the left side is the owner of the cell
      have hcell := Layout.get_mono hle₂ (ha m y rfl)
      rw [hx] at hcell
      obtain rfl := Option.some.inj (Option.some.inj hcell)
      intro k hk
      obtain ⟨fn, hfn, hdecl, hflow⟩ := hv k hk
      exact ⟨fn, hfn, hdecl, hS.assign hf hs _ hflow⟩
  | updateStmt n arg increment =>
    rw [execStmt]
    refine (hlvalue List.mem_cons_self).bind fun w₁ a _ _ ↦ ?_
    refine (holds_loadAny a).bind fun w₂ v _ _ ↦ ?_
    exact holds_expectFlows.bind fun w₃ x _ _ ↦ holds_storeInt a _
  | blockStmt n stmts =>
    rw [execStmt]
    exact Guarantee.holds_forM stmts w fun s' hs' w' hle ↦ hstmt hle (List.mem_map_of_mem hs')
  | whileStmt n condition body =>
    rw [execStmt]
    refine (hexpr le_rfl List.mem_cons_self).bind fun w₁ v hle₁ _ ↦ ?_
    refine holds_expectFlows.bind fun w₂ b hle₂ _ ↦ ?_
    have hle := hle₁.trans hle₂
    split_ifs
    · exact (hstmt hle (List.mem_cons_of_mem _ List.mem_cons_self)).bind fun w₃ _ hle₃ _ ↦
        hev.stmt hf (hsc.mono (hle.trans hle₃)) hs
    · exact Guarantee.holds_pure trivial
  | forStmt n item domain body =>
    have hbody : ASTNode.stmt body ∈ (ASTStmt.forStmt n item domain body).getChildren :=
      List.mem_cons_of_mem _ (List.mem_append_right _ List.mem_cons_self)
    cases domain with
    | iterator iterator =>
      rw [execStmt]
      refine (hlvalue List.mem_cons_self).bind fun w₁ a hle₁ _ ↦ ?_
      refine (hexpr hle₁ (List.mem_cons_of_mem _ List.mem_cons_self)).bind fun w₂ v hle₂ _ ↦ ?_
      refine holds_expectFlows.bind fun w₃ arr hle₃ _ ↦ ?_
      refine Guarantee.holds_forM _ w₃ fun i _ w₄ hle₄ ↦ ?_
      refine (holds_loadAny _).bind fun w₅ x hle₅ _ ↦ ?_
      refine (holds_ownerFlows a).bind ?_
      rintro w' owner - ⟨rfl, howner⟩
      refine (Guarantee.holds_emit (Q := fun w'' _ ↦ w'' = w' ∧
        (Event.iterated item owner x).IsAnalysed) fun hmeets ↦ ⟨trivial, rfl, hmeets⟩).bind ?_
      rintro w'' ⟨⟩ - ⟨rfl, hmeets⟩
      refine (holds_storeFlows fun y hy ↦ ?_).bind fun w₆ _ hle₆ _ ↦
        hstmt ((((hle₁.trans hle₂).trans hle₃).trans hle₄).trans (hle₅.trans hle₆)) hbody
      rcases hmeets with hnone | hnone
      · exact Value.flowsTo_of_function?_eq_none hnone y
      · rw [howner _ hy] at hnone
        cases hnone
    | range rangeStart rangeEnd increment =>
      have hchildren : ∀ e ∈ rangeStart :: rangeEnd :: increment.toList,
          ASTNode.expr e ∈ (ASTStmt.forStmt n item (.range rangeStart rangeEnd increment)
            body).getChildren := by
        cases increment <;> simp [ASTStmt.getChildren, ForDomain.getChildren]
      rw [execStmt]
      refine (hlvalue List.mem_cons_self).bind fun w₁ a hle₁ _ ↦ ?_
      refine (hexpr hle₁ (hchildren _ List.mem_cons_self)).bind fun w₂ v₁ hle₂ _ ↦ ?_
      refine holds_expectFlows.bind fun w₃ first hle₃ _ ↦ ?_
      have hle := (hle₁.trans hle₂).trans hle₃
      refine (hexpr hle (hchildren _ (List.mem_cons_of_mem _ List.mem_cons_self))).bind
        fun w₄ v₂ hle₄ _ ↦ ?_
      refine holds_expectFlows.bind fun w₅ stop hle₅ _ ↦ ?_
      have hle' := hle.trans (hle₄.trans hle₅)
      -- the rounds, whatever the increment is
      have hrounds : ∀ {w₆ : Layout (Option NodeId)} (step : Word), w₅ ≤ w₆ →
          (flowGuarantee p S).Holds w₆ (do
            Memory.store a (.int first)
            ev.range sc a stop step body) fun _ _ ↦ True := fun step hle₆ ↦
        (holds_storeInt a first).bind fun w₇ _ hle₇ _ ↦
          hev.range hf (hsc.mono (hle'.trans (hle₆.trans hle₇))) (hs.child hbody)
      cases increment with
      | none => exact hrounds 1 le_rfl
      | some e =>
        refine (hexpr hle' (hchildren _ (by simp))).bind fun w₆ v₃ hle₆ _ ↦ ?_
        exact holds_expectFlows.bind fun w₇ step hle₇ _ ↦ hrounds step (hle₆.trans hle₇)
  | ifStmt n condition thenStmt elseStmt =>
    unfold execStmt
    dsimp only
    refine (hexpr le_rfl (by cases elseStmt <;> simp [ASTStmt.getChildren])).bind
      fun w₁ v hle₁ _ ↦ ?_
    refine holds_expectFlows.bind fun w₂ b hle₂ _ ↦ ?_
    split_ifs
    · exact hstmt (hle₁.trans hle₂) (by cases elseStmt <;> simp [ASTStmt.getChildren])
    · cases elseStmt with
      | none => exact Guarantee.holds_pure trivial
      | some s => exact hstmt (hle₁.trans hle₂) (by simp [ASTStmt.getChildren])
  | outputStmt n arg =>
    rw [execStmt]
    refine (hexpr le_rfl List.mem_cons_self).bind fun w₁ v _ _ ↦ ?_
    exact holds_expectFlows.bind fun w₂ _ _ _ ↦
      Guarantee.holds_emit fun _ ↦ ⟨trivial, trivial⟩
  | errorStmt n arg =>
    rw [execStmt]
    refine (hexpr le_rfl List.mem_cons_self).bind fun w₁ v _ _ ↦ ?_
    exact holds_expectFlows.bind fun w₂ _ _ _ ↦ Guarantee.holds_fail trivial

theorem holds_execRangeFlows {body : ASTStmt} (hbody : f.Visits (.stmt body)) (a : ℕ)
    (stop step : Word) :
    (flowGuarantee p S).Holds w (execRange ev sc a stop step body) fun _ _ ↦ True := by
  unfold execRange
  refine (holds_loadAny a).bind fun w₁ v hle₁ _ ↦ ?_
  refine holds_expectFlows.bind fun w₂ x hle₂ _ ↦ ?_
  split_ifs
  · refine (hev.stmt hf (hsc.mono (hle₁.trans hle₂)) hbody).bind fun w₃ _ hle₃ _ ↦ ?_
    refine (holds_loadAny a).bind fun w₄ v' hle₄ _ ↦ ?_
    refine holds_expectFlows.bind fun w₅ y hle₅ _ ↦ ?_
    refine (holds_storeInt a _).bind fun w₆ _ hle₆ _ ↦ ?_
    exact hev.range hf (hsc.mono ((hle₁.trans hle₂).trans
      ((hle₃.trans hle₄).trans (hle₅.trans hle₆)))) hbody
  · exact Guarantee.holds_pure trivial

end Expressions

/-- Every number of levels keeps the functions in their sets. -/
theorem evaluatorsFlow {st : SymbolTable} (h : st.Describes p) (hS : SolvesFlow p S) :
    ∀ n, EvaluatorsFlow p S (evaluators p n)
  | 0 =>
    { expr := fun _ _ _ ↦ Guarantee.holds_timeout
      stmt := fun _ _ _ ↦ Guarantee.holds_timeout
      range := fun _ _ _ ↦ Guarantee.holds_timeout }
  | n + 1 =>
    { expr := fun hf hsc he ↦ by
        refine (holds_evalExprFlows hS (evaluatorsFlow h hS n) hf hsc h he).bind fun w₁ v _ hv ↦ ?_
        refine (Guarantee.holds_emit (Q := fun _ _ ↦ (Event.evaluated _ v).IsAnalysed)
          fun hmeets ↦ ⟨trivial, hmeets⟩).bind fun w₂ _ _ hmeets ↦ ?_
        exact Guarantee.holds_pure (hv hmeets)
      stmt := fun hf hsc hs ↦ holds_execStmtFlows hS (evaluatorsFlow h hS n) hf hsc hs
      range := fun hf hsc hbody ↦
        holds_execRangeFlows (evaluatorsFlow h hS n) hf hsc hbody _ _ _ }

/-! ### Runs -/

/-- The call graph has the sets of a solution. -/
theorem CallGraphObject.exists_solvesFlow {st : SymbolTable} (h : st.Describes p)
    {iter : IterationOrder} {fuel : ℕ} {cg : CallGraphObject}
    (hcg : ofProgram p st iter fuel = some cg) : ∃ S, SolvesFlow p S ∧
      ∀ f ∈ p.functions, ∀ n e as, f.HasCall n e as → ∀ y, S (p.denoted f e) y →
        y ∈ (cg.getCalledFuns n).1 ∧ y ∈ cg.getCallees f.node := by
  obtain ⟨S, hS, hcalls⟩ := exists_isSolution h hcg
  exact ⟨S, SolvesFlow.of_isSolution h hS, hcalls⟩

/-- A run in which functions take only the ways that the analysis knows makes only calls that are in
the call graph. -/
theorem CallGraphObject.coversCalls {st : SymbolTable} (hb : SymbolTable.build p = .ok st)
    {iter : IterationOrder} {fuel : ℕ} {cg : CallGraphObject}
    (hcg : ofProgram p st iter fuel = some cg) {levels : ℕ} {args input : ℕ → Word}
    {x : Execution Memory Event Failure Value} (hrun : p.run levels args input = some x)
    (hflow : ∀ ev ∈ x.events, ev.IsAnalysed) : ∀ ev ∈ x.events, ev.IsInCallGraph p cg := by
  have h := SymbolTable.build_spec hb
  obtain ⟨S, hS, hcalls⟩ := exists_solvesFlow h hcg
  obtain ⟨f, hmain, rfl⟩ := Option.map_eq_some_iff.1 hrun
  -- the cells of the function names
  let w : Layout (Option NodeId) := ⟨p.functions.map fun g ↦ some g.decl.node⟩
  have hinv : (flowGuarantee p S).inv w (p.initialMemory input) := by
    refine List.forall₂_map_left_iff.2 (List.forall₂_map_right_iff.2 (List.forall₂_same.2 ?_))
    refine fun g hg ↦ ⟨rfl, fun y v hy hv ↦ ?_⟩
    obtain rfl := Option.some.inj hy
    obtain rfl := Option.some.inj hv
    rintro k ⟨⟩
    exact ⟨g, hg, rfl, hS.function g hg⟩
  have hinvoke := holds_invokeFlows (w := w) (evaluatorsFlow h hS levels) h
    (List.mem_of_find?_eq_some hmain)
    (show _ = ((List.range f.formals.length).map fun i ↦ Value.int (args i)).length by simp)
    (fun i g hg ↦ by simp [w, hg]) fun i d v hd hv ↦ by
      rw [List.getElem?_map] at hv
      obtain ⟨j, -, rfl⟩ := Option.map_eq_some_iff.1 hv
      exact Value.flowsTo_of_function?_eq_none rfl d.node
  obtain ⟨hensured, -⟩ := hinvoke _ hinv hflow
  intro ev hev
  have hfollows := hensured ev hev
  cases ev with
  | called n caller callee =>
    obtain ⟨f, hf, g, hg, hcaller, hcallee, e, as, hcall, hset⟩ := hfollows
    exact ⟨f, hf, g, hg, hcaller, hcallee, hcalls f hf n e as hcall g.node hset⟩
  | _ => trivial

end

theorem CallGraphObject.coversCalls_callOne : ∃ st cg x,
    SymbolTable.build callOneProgram = .ok st ∧ ofProgram callOneProgram st .creation 9 = some cg ∧
    callOneProgram.run 9 (fun _ ↦ 0) (fun _ ↦ 0) = some x ∧
    ∀ ev ∈ x.events, ev.IsInCallGraph callOneProgram cg := by
  refine ⟨_, _, _, rfl, (Option.some_get (by decide)).symm, rfl,
    CallGraphObject.coversCalls rfl (Option.some_get (by decide)).symm rfl fun ev hev ↦ ?_⟩
  have hevents : ev ∈ [.evaluated (.variableExpr 9 "f") (.function 1),
      .evaluated (.numberExpr 10 1) (.int 1), .called 8 6 1,
      .evaluated (.variableExpr 4 "x") (.int 1), .returned 1 (.int 1),
      .evaluated (.funAppExpr 8 (.variableExpr 9 "f") [.numberExpr 10 1]) (.int 1),
      Event.returned 6 (.int 1)] := hev
  simp only [List.mem_cons, List.not_mem_nil, or_false] at hevents
  rcases hevents with rfl | rfl | rfl | rfl | rfl | rfl | rfl <;>
    simp [Event.IsAnalysed, ASTExpr.IsAnalysed]

/-- `f(x) { return x; } main() { return (true ? f : f)(1); }` -/
def callTernaryProgram : ASTProgram where
  functions :=
    [⟨0, ⟨1, "f"⟩, [⟨2, "x"⟩], [], [], ⟨3, .variableExpr 4 "x"⟩, false⟩,
      ⟨5, ⟨6, "main"⟩, [], [], [],
        ⟨7, .funAppExpr 8 (.ternaryExpr 9 (.boolExpr 10 true) (.variableExpr 11 "f")
          (.variableExpr 12 "f")) [.numberExpr 13 1]⟩, false⟩]
  distinct := by decide

/-- The call graph does not have the call of a function that a ternary gives. -/
theorem CallGraphObject.not_coversCalls_callTernary : ∃ st cg x,
    SymbolTable.build callTernaryProgram = .ok st ∧
    CheckAssignable.check callTernaryProgram = .ok () ∧ callTernaryProgram.AcceptedMono st ∧
    ofProgram callTernaryProgram st .creation 9 = some cg ∧
    callTernaryProgram.run 9 (fun _ ↦ 0) (fun _ ↦ 0) = some x ∧
    ∃ ev ∈ x.events, ¬ ev.IsInCallGraph callTernaryProgram cg := by
  refine ⟨_, _, _, rfl, rfl, ⟨.creation, 9, _, rfl⟩, (Option.some_get (by decide)).symm, rfl,
    .called 8 6 1, ?_, ?_⟩
  · change Event.called 8 6 1 ∈ [.evaluated (.boolExpr 10 true) (.bool true),
      .evaluated (.variableExpr 11 "f") (.function 1),
      .evaluated (.ternaryExpr 9 (.boolExpr 10 true) (.variableExpr 11 "f") (.variableExpr 12 "f"))
        (.function 1), .evaluated (.numberExpr 13 1) (.int 1), .called 8 6 1,
      .evaluated (.variableExpr 4 "x") (.int 1), .returned 1 (.int 1),
      .evaluated (.funAppExpr 8 (.ternaryExpr 9 (.boolExpr 10 true) (.variableExpr 11 "f")
        (.variableExpr 12 "f")) [.numberExpr 13 1]) (.int 1), .returned 6 (.int 1)]
    simp
  · rintro ⟨f, hf, g, hg, hcaller, hcallee, hcalled, -⟩
    change g.node ∈ ([] : List NodeId) at hcalled
    cases hcalled

end Sipc
