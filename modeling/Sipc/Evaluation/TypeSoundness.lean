import Sipc.Evaluation.ValueTypes

/-!
# Well-typed programs and wrong kinds

A run keeps the types of its cells, gives every expression a value of its type and ends in no failure
of the wrong kind (`ASTProgram.typeSound`), as long as the typing meets the rules that the visitor
lacks wherever the run needs them. What one level of evaluation keeps is shown for each expression and
statement, from what the level below keeps (`EvaluatorsSound`).
-/

set_option autoImplicit false
set_option relaxedAutoImplicit false

namespace Sipc

open Library TypeConstraintVisitor

section

variable {p : ASTProgram} {st : SymbolTable} {σ : TipType → TypeTree}

/-! ### Expressions -/

section Expressions

variable (hσ : p.TypedBy st σ) {ev : Evaluators} {w : Layout TypeTree} {f : ASTFunction}
  (hf : f ∈ p.functions)

include hσ hf

theorem label_of_int {n : ASTNode} (hn : f.Visits n) {t : TipType}
    (hc : ⟨t, .int⟩ ∈ endVisit st f.decl.node n) : (σ t).label = .int := by
  have heq : σ t = σ .int := hσ.solves hf hn _ hc
  rw [heq, hσ.int, Library.Tree.label_node]

theorem label_of_bool {n : ASTNode} (hn : f.Visits n) {t : TipType}
    (hc : ⟨t, .bool⟩ ∈ endVisit st f.decl.node n) : (σ t).label = .bool := by
  have heq : σ t = σ .bool := hσ.solves hf hn _ hc
  rw [heq, hσ.bool, Library.Tree.label_node]

/-- The operators give values of the type of the operation. -/
theorem holds_applyTyped {n : NodeId} {op : BinaryOp} {left right : ASTExpr}
    (hn : f.Visits (.expr (.binaryExpr n op left right))) {l r : Value}
    (hl : l.HasType p st σ w (f.typeOf st σ left)) (hr : r.HasType p st σ w (f.typeOf st σ right)) :
    (typeGuarantee p st σ).Holds w (op.apply l r) fun w' v ↦
      v.HasType p st σ w' (f.typeOf st σ (.binaryExpr n op left right)) := by
  -- what the constraints say of the operation and of its operands
  set node : ASTExpr := .binaryExpr n op left right with hnode
  have hint : ∀ e, ⟨astToVar st f.decl.node e, .int⟩ ∈ endVisitBinary st f.decl.node node op left right →
      (f.typeOf st σ e).label = .int := fun _ he ↦ label_of_int hσ hf hn he
  have hbool : ∀ e, ⟨astToVar st f.decl.node e, .bool⟩ ∈
      endVisitBinary st f.decl.node node op left right → (f.typeOf st σ e).label = .bool :=
    fun _ he ↦ label_of_bool hσ hf hn he
  cases op with
  | eq | ne => exact Guarantee.holds_pure (hbool node (by simp [endVisitBinary]))
  | and | or =>
    obtain ⟨x, rfl⟩ := hl.exists_bool hσ (hbool left (by simp [endVisitBinary]))
    obtain ⟨y, rfl⟩ := hr.exists_bool hσ (hbool right (by simp [endVisitBinary]))
    exact Guarantee.holds_pure (hbool node (by simp [endVisitBinary]))
  | add | sub | mul =>
    obtain ⟨x, rfl⟩ := hl.exists_int hσ (hint left (by simp [endVisitBinary]))
    obtain ⟨y, rfl⟩ := hr.exists_int hσ (hint right (by simp [endVisitBinary]))
    exact Guarantee.holds_pure (hint node (by simp [endVisitBinary]))
  | gt | ge | lt | le =>
    obtain ⟨x, rfl⟩ := hl.exists_int hσ (hint left (by simp [endVisitBinary]))
    obtain ⟨y, rfl⟩ := hr.exists_int hσ (hint right (by simp [endVisitBinary]))
    exact Guarantee.holds_pure (hbool node (by simp [endVisitBinary]))
  | div | mod =>
    obtain ⟨x, rfl⟩ := hl.exists_int hσ (hint left (by simp [endVisitBinary]))
    obtain ⟨y, rfl⟩ := hr.exists_int hσ (hint right (by simp [endVisitBinary]))
    change (typeGuarantee p st σ).Holds w (if y = 0 then Run.fail .divisionByZero else pure _) _
    split_ifs
    · exact Guarantee.holds_fail (by simp [typeGuarantee, CellRule.guarantee])
    · exact Guarantee.holds_pure (hint node (by simp [endVisitBinary]))

/-- The constraint of a node, for the trees of its two sides. -/
theorem typeOf_eq {n : ASTNode} (hn : f.Visits n) {e : ASTExpr} {t : TipType}
    (hc : ⟨astToVar st f.decl.node e, t⟩ ∈ endVisit st f.decl.node n) : f.typeOf st σ e = σ t :=
  hσ.solves hf hn _ hc

theorem holds_lvalueTyped (h : st.Describes p) (hev : EvaluatorsSound p st σ ev) {sc : Scope}
    (hsc : ScopeTyped p st σ w f sc) {e : ASTExpr} (he : f.Visits (.expr e)) (hcell : e.HasCell) :
    (typeGuarantee p st σ).Holds w (lvalue ev sc e) fun w' a ↦
      w'.cells[a]? = some (f.typeOf st σ e) := by
  cases e with
  | variableExpr n x =>
    obtain ⟨a, ha, hu⟩ := hsc.lookup n x he
    rw [lvalue, ha]
    exact Guarantee.holds_pure hu
  | deRefExpr n ptr =>
    have htype := typeOf_eq hσ hf he (e := ptr)
      (t := .ref (astToVar st f.decl.node (.deRefExpr n ptr))) List.mem_cons_self
    rw [hσ.ref] at htype
    rw [lvalue]
    refine (hev.expr hf hsc (he.subExpr List.mem_cons_self)).bind fun w₁ v _ hv ↦ ?_
    rw [htype] at hv
    exact holds_dereference hσ hv
  | accessExpr n record field =>
    have htype := typeOf_eq hσ hf he (e := record) (t := .record (st.getFields.map
      (accessType st f.decl.node (.accessExpr n record field) field))) List.mem_cons_self
    rw [hσ.record, List.map_map] at htype
    have hfield : field ∈ st.getFields := by
      rw [h.fields]
      exact FieldNameCollector.mem_foldl (p.mem_accept hf he.endVisit) rfl []
    rw [lvalue]
    refine (hev.expr hf hsc (he.subExpr List.mem_cons_self)).bind fun w₁ v _ hv ↦ ?_
    rw [htype] at hv
    obtain ⟨base, fields, rfl, hfields⟩ := hv.exists_record hσ
    refine (holds_expect (k := Value.record?) rfl (Q := fun w' a ↦ w' = w₁ ∧ a = fields)
      ⟨rfl, rfl⟩).bind ?_
    rintro w' fields' - ⟨rfl, rfl⟩
    have hthis := hfields field _ (mem_zip_map hfield _)
    have hown : accessType st f.decl.node (.accessExpr n record field) field field =
        astToVar st f.decl.node (.accessExpr n record field) := if_pos rfl
    rw [Function.comp_apply, hown] at hthis
    refine Guarantee.holds_orFail (fun a ha ↦ ?_) fun hnone ↦ ?_
    · rw [ha] at hthis
      exact hthis
    · -- an accepted access is not absent
      rw [hnone] at hthis
      exact absurd hthis (hσ.present n ⟨_, _, p.mem_accept hf he.endVisit⟩)
  | indexingExpr n arr idx =>
    have htype := typeOf_eq hσ hf he (e := arr)
      (t := .array (astToVar st f.decl.node (.indexingExpr n arr idx)))
      (List.mem_cons_of_mem _ List.mem_cons_self)
    rw [hσ.array] at htype
    have hint : (f.typeOf st σ idx).label = .int := label_of_int hσ hf he List.mem_cons_self
    rw [lvalue]
    refine (hev.expr hf hsc (he.subExpr List.mem_cons_self)).bind fun w₁ v hle₁ hv ↦ ?_
    rw [htype] at hv
    obtain ⟨base, len, rfl, helems⟩ := hv.exists_array hσ
    refine (holds_expect (k := Value.array?) rfl (Q := fun w' a ↦ w' = w₁ ∧ a = (base, len))
      ⟨rfl, rfl⟩).bind ?_
    rintro w' a - ⟨rfl, rfl⟩
    refine (hev.expr hf (hsc.mono hle₁)
      (he.subExpr (List.mem_cons_of_mem _ List.mem_cons_self))).bind fun w₂ v hle₂ hv ↦ ?_
    obtain ⟨i, rfl⟩ := hv.exists_int hσ hint
    refine (holds_expect (k := Value.int?) rfl (Q := fun w' a ↦ w' = w₂ ∧ a = i)
      ⟨rfl, rfl⟩).bind ?_
    rintro w' i' - ⟨rfl, rfl⟩
    dsimp only
    split_ifs with hi
    · exact Guarantee.holds_pure (Layout.get_mono hle₂ (helems _ (by omega)))
    · exact Guarantee.holds_fail (by simp [typeGuarantee, CellRule.guarantee])
  | _ => cases hcell

omit hσ hf in
/-- A call keeps the types of its cells, and gives a value of the type of the result. -/
theorem holds_invokeTyped (h : st.Describes p) (hev : EvaluatorsSound p st σ ev) {g : ASTFunction}
    (hg : g ∈ p.functions) {vs : List Value} (hlen : g.formals.length = vs.length)
    (hfunctions : ∀ (i : ℕ) (g : ASTFunction), p.functions[i]? = some g →
      w.cells[i]? = some (σ (.tipVar g.decl.node)))
    (hvs : ∀ (i : ℕ) (d : ASTDeclNode) (v : Value), g.formals[i]? = some d → vs[i]? = some v →
      v.HasType p st σ w (σ (.tipVar d.node))) :
    (typeGuarantee p st σ).Holds w (invoke p ev g vs) fun w' v ↦
      v.HasType p st σ w' (g.typeOf st σ g.ret.arg) := by
  unfold invoke
  refine (CellRule.holds_allocate (l := g.localDecls.map fun d ↦ σ (.tipVar d.node))
    (forall₂_frame _ hlen ?_ ?_)).bind fun w₁ base hle hcells ↦ ?_
  · intro i d v hd hv x hx
    obtain rfl := Option.some.inj hx
    exact (hvs i d v hd hv).mono (w.le_add _)
  · intro d x hx
    cases hx
  have hsc : ScopeTyped p st σ w₁ g
      ⟨g.decl.node, (g.localDecls.map ASTDeclNode.name).zipIdx base ++ p.globals⟩ := by
    refine ⟨fun n x hx ↦ ?_, fun i g hi ↦ Layout.get_mono hle (hfunctions i g hi)⟩
    unfold ASTFunction.typeOf astToVar
    rw [CFAnalyzer.canonical_eq h hg]
    refine exists_lookup_scope h hg hx (P := fun a d ↦ w₁.cells[a]? = some (σ (.tipVar d)))
      (fun i d hd ↦ hcells i _ ?_) fun i g hi ↦ Layout.get_mono hle (hfunctions i g hi)
    rw [List.getElem?_map, hd]
    rfl
  refine (Guarantee.holds_forM g.body w₁ fun s hs w₂ hle₂ ↦
    hev.stmt hg (hsc.mono hle₂) (ASTFunction.visits_body hs)).bind fun w₂ _ hle₂ _ ↦ ?_
  refine (hev.expr hg (hsc.mono hle₂) g.visits_ret).bind fun w₃ v _ hv ↦ ?_
  refine (holds_emitEvent (Q := fun w' _ ↦ w' = w₃) fun _ ↦ rfl).bind ?_
  rintro w' ⟨⟩ - rfl
  exact Guarantee.holds_pure hv

omit hσ in
theorem holds_mapMTyped (hev : EvaluatorsSound p st σ ev) {sc : Scope}
    (hsc : ScopeTyped p st σ w f sc) {es : List ASTExpr} (hes : ∀ e ∈ es, f.Visits (.expr e)) :
    (typeGuarantee p st σ).Holds w (es.mapM (ev.expr sc)) fun w' vs ↦
      List.Forall₂ (fun e (v : Value) ↦ v.HasType p st σ w' (f.typeOf st σ e)) es vs :=
  Guarantee.holds_mapM (Q := fun w' e (v : Value) ↦ v.HasType p st σ w' (f.typeOf st σ e))
    (fun _ _ _ _ hle hv ↦ hv.mono hle) es w
    fun e he _ hle ↦ hev.expr hf (hsc.mono hle) (hes e he)

/-- A call of a value of the type of a function finds a function that takes the arguments. -/
theorem holds_applicationTyped (h : st.Describes p) (hev : EvaluatorsSound p st σ ev) {sc : Scope}
    (hsc : ScopeTyped p st σ w f sc) {n : NodeId} {function : ASTExpr} {actuals : List ASTExpr}
    (he : f.Visits (.expr (.funAppExpr n function actuals))) :
    (typeGuarantee p st σ).Holds w (evalExpr p ev sc (.funAppExpr n function actuals)) fun w' v ↦
      v.HasType p st σ w' (f.typeOf st σ (.funAppExpr n function actuals)) := by
  have htype := typeOf_eq hσ hf he (e := function) (t := .function
    (actuals.map (astToVar st f.decl.node)) (astToVar st f.decl.node (.funAppExpr n function actuals)))
    List.mem_cons_self
  rw [hσ.function, List.map_map] at htype
  rw [evalExpr]
  refine (hev.expr hf hsc (he.subExpr List.mem_cons_self)).bind fun w₁ v hle₁ hv ↦ ?_
  rw [htype] at hv
  obtain ⟨g, hg, rfl, heq⟩ := hv.exists_function hσ (Library.Tree.label_node _ _)
  refine (holds_mapMTyped hf hev (hsc.mono hle₁) fun e hmem ↦
    he.subExpr (List.mem_cons_of_mem _ hmem)).bind fun w₂ vs hle₂ hvs ↦ ?_
  have hsc₂ := (hsc.mono hle₁).mono hle₂
  -- the type of the function has as many formals as there are actuals
  have hsame : ∀ g' ∈ p.functions, g'.decl.node = g.decl.node →
      g'.formals.map (fun d ↦ σ (.tipVar d.node)) =
          actuals.map (σ ∘ astToVar st f.decl.node) ∧
        g'.typeOf st σ g'.ret.arg = f.typeOf st σ (.funAppExpr n function actuals) := by
    intro g' hg' hnode
    rw [← hnode, hσ.functionType hg'] at heq
    obtain ⟨hformals, hret⟩ := List.append_inj' (Library.Tree.node_inj.1 heq).2 rfl
    exact ⟨hformals.symm, (List.head_eq_of_cons_eq hret).symm⟩
  have hlen : ∀ g' ∈ p.functions, g'.decl.node = g.decl.node →
      g'.formals.length = vs.length := by
    intro g' hg' hnode
    have hmap := congrArg List.length (hsame g' hg' hnode).1
    rw [List.length_map, List.length_map] at hmap
    rw [hmap, hvs.length_eq]
  refine (Guarantee.holds_orFail (Q := fun w' g' ↦ w' = w₂ ∧ g' ∈ p.functions ∧
    g'.decl.node = g.decl.node) (fun g' hg' ↦ ?_) fun hnone ↦ ?_).bind ?_
  · change p.functions.find? _ = some g' at hg'
    have hfound := List.find?_some hg'
    rw [decide_eq_true_eq] at hfound
    exact ⟨rfl, List.mem_of_find?_eq_some hg', hfound.1⟩
  · change p.functions.find? _ = none at hnone
    have hnot := List.find?_eq_none.1 hnone g hg
    rw [decide_eq_true_eq] at hnot
    exact absurd ⟨rfl, hlen g hg rfl⟩ hnot
  · rintro w' g' - ⟨rfl, hg', hnode⟩
    obtain ⟨hformals, hret⟩ := hsame g' hg' hnode
    refine (holds_emitEvent (Q := fun w'' _ ↦ w'' = w') fun _ ↦ rfl).bind ?_
    rintro w'' ⟨⟩ - rfl
    rw [← hret]
    refine holds_invokeTyped h hev hg' (hlen g' hg' hnode) hsc₂.functions fun i d v hd hv ↦ ?_
    have hi := congrArg (fun l ↦ l[i]?) hformals
    simp only [List.getElem?_map, hd, Option.map_some] at hi
    obtain ⟨a, ha, htree⟩ := Option.map_eq_some_iff.1 hi.symm
    obtain ⟨hai, rfl⟩ := List.getElem?_eq_some_iff.1 ha
    obtain ⟨hvi, rfl⟩ := List.getElem?_eq_some_iff.1 hv
    rw [← htree]
    exact hvs.get hai hvi

omit hσ hf in
/-- The cells of an array hold its elements. -/
theorem holds_newArrayTyped {len : Word} {vs : List Value} {u : TypeTree}
    (hlen : len.toInt.toNat ≤ vs.length) (h : ∀ v ∈ vs, v.HasType p st σ w u) :
    (typeGuarantee p st σ).Holds w (newArray len vs) fun w' v ↦
      v.HasType p st σ w' (.node .array [u]) := by
  have hall : List.Forall₂ (fun (v : Value) t ↦ v.HasType p st σ w t) vs (vs.map fun _ ↦ u) :=
    List.forall₂_map_right_iff.2 (List.forall₂_same.2 h)
  refine (holds_allocateTyped hall).bind fun w₁ base _ hcells ↦ Guarantee.holds_pure ?_
  refine ⟨u, rfl, fun i hi ↦ hcells i u ?_⟩
  rw [List.getElem?_map, List.getElem?_eq_getElem (by omega)]
  rfl

/-- The elements of an array literal have the type of the first. -/
theorem typeOf_element {n : NodeId} {first : ASTExpr} {rest : List ASTExpr}
    (he : f.Visits (.expr (.arrayExpr n (first :: rest)))) :
    ∀ e ∈ first :: rest, f.typeOf st σ e = f.typeOf st σ first := by
  intro e hmem
  rcases List.mem_cons.1 hmem with rfl | hmem
  · rfl
  · refine (typeOf_eq hσ hf he (e := first) (t := astToVar st f.decl.node e) ?_).symm
    refine List.mem_append_left _ (List.mem_map.2 ⟨(first, e), ?_, rfl⟩)
    exact List.mem_append_left _ (List.mem_map_of_mem hmem)

/-- In a record the last initializer of a field counts, and the first one gives its type. -/
theorem holds_recordTyped (hev : EvaluatorsSound p st σ ev) {sc : Scope}
    (hsc : ScopeTyped p st σ w f sc) {n : NodeId} {fields : List ASTFieldExpr}
    (he : f.Visits (.expr (.recordExpr n fields))) :
    (typeGuarantee p st σ).Holds w (evalExpr p ev sc (.recordExpr n fields)) fun w' v ↦
      p.MeetsRules st σ (.evaluated (.recordExpr n fields) v) →
        v.HasType p st σ w' (f.typeOf st σ (.recordExpr n fields)) := by
  have htype := typeOf_eq hσ hf he (e := .recordExpr n fields)
    (t := .record (st.getFields.map (fieldType st f.decl.node fields))) List.mem_cons_self
  rw [hσ.record, List.map_map] at htype
  rw [evalExpr]
  refine (Guarantee.holds_mapM
    (Q := fun w' (fe : ASTFieldExpr) (v : Value) ↦
      v.HasType p st σ w' (f.typeOf st σ fe.initializer))
    (fun _ _ _ _ hle hv ↦ hv.mono hle) fields w fun fe hfe _ hle ↦ hev.expr hf (hsc.mono hle)
      (he.subExpr (List.mem_map_of_mem hfe))).bind fun w₁ vs _ hvs ↦ ?_
  have hall : List.Forall₂ (fun (v : Value) t ↦ v.HasType p st σ w₁ t) vs
      (fields.map fun fe ↦ f.typeOf st σ fe.initializer) :=
    List.forall₂_map_right_iff.2 hvs.flip
  refine (holds_allocateTyped hall).bind fun w₂ base _ hcells ↦ Guarantee.holds_pure fun hmeets ↦ ?_
  rw [htype]
  refine ⟨_, rfl, fun x u hxu ↦ ?_⟩
  have hu : x ∈ st.getFields ∧ u = σ (fieldType st f.decl.node fields x) := by
    obtain ⟨k, hk⟩ := List.mem_iff_getElem?.1 hxu
    obtain ⟨hx, hu⟩ := List.getElem?_zip_eq_some.1 hk
    rw [List.getElem?_map, hx] at hu
    exact ⟨List.mem_of_getElem? hx, (Option.some.inj hu).symm⟩
  obtain ⟨hx, rfl⟩ := hu
  -- by the missing rule, the last initializer has the type of the first
  have hlast : σ (fieldType st f.decl.node fields.reverse x) = _ :=
    hmeets f hf he _ (List.mem_map_of_mem hx)
  rw [← hlast]
  unfold fieldType
  rcases lookup_fieldCells x fields (base + 1) with ⟨i, fe, hfind, hget, hlookup⟩ | ⟨hfind, hlookup⟩
  · rw [hlookup, hfind]
    refine hcells i _ ?_
    rw [List.getElem?_map, hget]
    rfl
  · rw [hlookup, hfind]
    dsimp only
    rw [hσ.absentField, Library.Tree.label_node]

/-- The value of an expression has its type, where the missing rules are met. -/
theorem holds_evalExprTyped (h : st.Describes p) (hc : CheckAssignable.check p = .ok ())
    (hev : EvaluatorsSound p st σ ev) {sc : Scope} (hsc : ScopeTyped p st σ w f sc) {e : ASTExpr}
    (he : f.Visits (.expr e)) :
    (typeGuarantee p st σ).Holds w (evalExpr p ev sc e) fun w' v ↦
      p.MeetsRules st σ (.evaluated e v) → v.HasType p st σ w' (f.typeOf st σ e) := by
  have hsub : ∀ {w' : Layout TypeTree} {c : ASTExpr}, w ≤ w' → c ∈ e.subExprs →
      (typeGuarantee p st σ).Holds w' (ev.expr sc c) fun w'' v ↦
        v.HasType p st σ w'' (f.typeOf st σ c) :=
    fun hle hmem ↦ hev.expr hf (hsc.mono hle) (he.subExpr hmem)
  -- an expression with a cell has the value in the cell
  have hcellular : e.HasCell → (typeGuarantee p st σ).Holds w (do
      let a ← lvalue ev sc e
      Memory.load a) fun w' v ↦
        p.MeetsRules st σ (.evaluated e v) → v.HasType p st σ w' (f.typeOf st σ e) := fun hcell ↦
    (holds_lvalueTyped hσ hf h hev hsc he hcell).bind fun w₁ a _ ha ↦
      (holds_loadTyped ha).mono fun _ _ _ hv _ ↦ hv
  cases e with
  | numberExpr n val => exact Guarantee.holds_pure fun _ ↦ label_of_int hσ hf he List.mem_cons_self
  | boolExpr n val => exact Guarantee.holds_pure fun _ ↦ label_of_bool hσ hf he List.mem_cons_self
  | inputExpr n =>
    exact (CellRule.holds_read (Q := fun _ _ ↦ True) fun _ ↦ trivial).bind fun _ _ _ _ ↦
      Guarantee.holds_pure fun _ ↦ label_of_int hσ hf he List.mem_cons_self
  | nullExpr n =>
    have htype := typeOf_eq hσ hf he (e := .nullExpr n) (t := .ref (.tipAlpha n)) List.mem_cons_self
    rw [hσ.ref] at htype
    refine Guarantee.holds_pure fun _ ↦ ?_
    rw [htype]
    exact Library.Tree.label_node _ _
  | variableExpr n x => exact hcellular trivial
  | deRefExpr n ptr => exact hcellular trivial
  | accessExpr n record field => exact hcellular trivial
  | indexingExpr n arr idx => exact hcellular trivial
  | binaryExpr n op left right =>
    refine (hsub le_rfl List.mem_cons_self).bind fun w₁ l hle₁ hl ↦ ?_
    refine (hsub hle₁ (List.mem_cons_of_mem _ List.mem_cons_self)).bind fun w₂ r hle₂ hr ↦ ?_
    exact (holds_applyTyped hσ hf he (hl.mono hle₂) hr).mono fun _ _ _ hv _ ↦ hv
  | notExpr n arg =>
    refine (hsub le_rfl List.mem_cons_self).bind fun w₁ v _ hv ↦ ?_
    obtain ⟨b, rfl⟩ := hv.exists_bool hσ (label_of_bool hσ hf he List.mem_cons_self)
    refine Guarantee.holds_pure fun hmeets ↦ ?_
    have hrule : f.typeOf st σ (.notExpr n arg) = σ .bool := hmeets f hf he _ List.mem_cons_self
    rw [hrule, hσ.bool]
    exact Library.Tree.label_node _ _
  | negExpr n arg =>
    refine (hsub le_rfl List.mem_cons_self).bind fun w₁ v _ hv ↦ ?_
    obtain ⟨x, rfl⟩ := hv.exists_int hσ (label_of_int hσ hf he List.mem_cons_self)
    refine Guarantee.holds_pure fun hmeets ↦ ?_
    have hrule : f.typeOf st σ (.negExpr n arg) = σ .int := hmeets f hf he _ List.mem_cons_self
    rw [hrule, hσ.int]
    exact Library.Tree.label_node _ _
  | funAppExpr n function actuals =>
    exact (holds_applicationTyped hσ hf h hev hsc he).mono fun _ _ _ hv _ ↦ hv
  | allocExpr n initializer =>
    have htype := typeOf_eq hσ hf he (e := .allocExpr n initializer)
      (t := .ref (astToVar st f.decl.node initializer)) List.mem_cons_self
    rw [hσ.ref] at htype
    refine (hsub le_rfl List.mem_cons_self).bind fun w₁ v _ hv ↦ ?_
    refine (CellRule.holds_allocate (l := [f.typeOf st σ initializer])
      (List.forall₂_cons.2 ⟨fun x hx ↦ ?_, List.Forall₂.nil⟩)).bind fun w₂ a _ ha ↦
        Guarantee.holds_pure fun _ ↦ ?_
    · obtain rfl := Option.some.inj hx
      exact hv.mono (w₁.le_add _)
    · rw [htype]
      exact ⟨_, rfl, ha 0 _ rfl⟩
  | refExpr n var =>
    have htype := typeOf_eq hσ hf he (e := .refExpr n var)
      (t := .ref (astToVar st f.decl.node var)) List.mem_cons_self
    rw [hσ.ref] at htype
    have hcell : var.HasCell := by
      have hcheck := CheckAssignable.endVisit_of_check hc (p.mem_accept hf he.endVisit)
      change (if isAssignable var = true then _ else _) = Except.ok () at hcheck
      split_ifs at hcheck with hassign
      exact hasCell_of_isAssignable hassign
    refine (holds_lvalueTyped hσ hf h hev hsc (he.subExpr List.mem_cons_self) hcell).bind
      fun w₁ a _ ha ↦ Guarantee.holds_pure fun _ ↦ ?_
    rw [htype]
    exact ⟨_, rfl, ha⟩
  | recordExpr n fields => exact holds_recordTyped hσ hf hev hsc he
  | ternaryExpr n c t e =>
    have hbranches := typeOf_eq hσ hf he (e := t) (t := astToVar st f.decl.node e)
      (List.mem_cons_of_mem _ List.mem_cons_self)
    have hwhole := typeOf_eq hσ hf he (e := .ternaryExpr n c t e) (t := astToVar st f.decl.node t)
      (List.mem_cons_of_mem _ (List.mem_cons_of_mem _ List.mem_cons_self))
    refine (hsub le_rfl List.mem_cons_self).bind fun w₁ v hle₁ hv ↦ ?_
    obtain ⟨b, rfl⟩ := hv.exists_bool hσ (label_of_bool hσ hf he List.mem_cons_self)
    change (typeGuarantee p st σ).Holds w₁ (if b then ev.expr sc t else ev.expr sc e) _
    rw [hwhole]
    split_ifs
    · refine (hsub hle₁ (List.mem_cons_of_mem _ List.mem_cons_self)).mono fun _ _ _ hv _ ↦ hv
    · rw [show σ (astToVar st f.decl.node t) = f.typeOf st σ e from hbranches]
      exact (hsub hle₁ (List.mem_cons_of_mem _ (List.mem_cons_of_mem _ List.mem_cons_self))).mono
        fun _ _ _ hv _ ↦ hv
  | arrayExpr n elements =>
    refine (holds_mapMTyped hf hev hsc fun e (hmem : e ∈ elements) ↦ he.subExpr hmem).bind
      fun w₁ vs _ hvs ↦ ?_
    have hlen : (BitVec.ofNat 64 elements.length).toInt.toNat ≤ vs.length := by
      rw [← hvs.length_eq]
      have hmod := Nat.mod_le elements.length (2 ^ 64)
      rw [BitVec.toInt_eq_toNat_cond, BitVec.toNat_ofNat]
      split_ifs <;> omega
    cases elements with
    | nil =>
      cases hvs
      refine (holds_newArrayTyped (u := σ (.tipAlpha n)) hlen (by simp)).mono
        fun w₂ v _ hv hmeets ↦ ?_
      have hrule : f.typeOf st σ (.arrayExpr n []) = σ (.array (.tipAlpha n)) :=
        hmeets f hf he _ List.mem_cons_self
      rw [hrule, hσ.array]
      exact hv
    | cons first rest =>
      have htype := typeOf_eq hσ hf he (e := .arrayExpr n (first :: rest))
        (t := .array (astToVar st f.decl.node first)) (List.mem_append_right _ List.mem_cons_self)
      rw [hσ.array] at htype
      rw [htype]
      refine (holds_newArrayTyped hlen (forall_mem_of_forall₂ hvs fun e hmem v hv ↦ ?_)).mono
        fun _ _ _ hv _ ↦ hv
      rwa [typeOf_element hσ hf he e hmem] at hv
  | arrayOfExpr n e1 e2 =>
    have htype := typeOf_eq hσ hf he (e := .arrayOfExpr n e1 e2)
      (t := .array (astToVar st f.decl.node e2)) (List.mem_cons_of_mem _ List.mem_cons_self)
    rw [hσ.array] at htype
    refine (hsub le_rfl List.mem_cons_self).bind fun w₁ v hle₁ hv ↦ ?_
    obtain ⟨len, rfl⟩ := hv.exists_int hσ (label_of_int hσ hf he List.mem_cons_self)
    refine (holds_expect (k := Value.int?) rfl (Q := fun w' x ↦ w' = w₁ ∧ x = len)
      ⟨rfl, rfl⟩).bind ?_
    rintro w' x - ⟨rfl, rfl⟩
    refine (holds_mapMTyped hf hev (hsc.mono hle₁) fun e hmem ↦ ?_).bind fun w₂ vs _ hvs ↦ ?_
    · rw [List.eq_of_mem_replicate hmem]
      exact he.subExpr (List.mem_cons_of_mem _ List.mem_cons_self)
    rw [htype]
    refine (holds_newArrayTyped (by rw [← hvs.length_eq, List.length_replicate])
      (forall_mem_of_forall₂ hvs fun e hmem v hv ↦ ?_)).mono fun _ _ _ hv _ ↦ hv
    rwa [List.eq_of_mem_replicate hmem] at hv
  | arrayLenExpr n ptr =>
    have htype := typeOf_eq hσ hf he (e := ptr) (t := .array (.tipAlpha ptr.node))
      (List.mem_cons_of_mem _ List.mem_cons_self)
    rw [hσ.array] at htype
    refine (hsub le_rfl List.mem_cons_self).bind fun w₁ v _ hv ↦ ?_
    rw [htype] at hv
    obtain ⟨base, len, rfl, -⟩ := hv.exists_array hσ
    exact Guarantee.holds_pure fun _ ↦ label_of_int hσ hf he List.mem_cons_self

/-- The two sides of an assignment have one type. -/
theorem typeOf_assign {n : NodeId} {lhs rhs : ASTExpr}
    (hs : f.Visits (.stmt (.assignStmt n lhs rhs))) : f.typeOf st σ lhs = f.typeOf st σ rhs := by
  cases lhs with
  | deRefExpr m ptr =>
    have hstore := typeOf_eq hσ hf hs (e := ptr) (t := .ref (astToVar st f.decl.node rhs))
      List.mem_cons_self
    have hderef := typeOf_eq hσ hf (hs.child List.mem_cons_self) (e := ptr)
      (t := .ref (astToVar st f.decl.node (.deRefExpr m ptr))) List.mem_cons_self
    rw [hstore, hσ.ref, hσ.ref] at hderef
    exact (List.head_eq_of_cons_eq (Library.Tree.node_inj.1 hderef).2).symm
  | _ => exact typeOf_eq hσ hf hs List.mem_cons_self

/-- A statement keeps the types of the cells. -/
theorem holds_execStmtTyped (h : st.Describes p) (hc : CheckAssignable.check p = .ok ())
    (hev : EvaluatorsSound p st σ ev) {sc : Scope} (hsc : ScopeTyped p st σ w f sc) {s : ASTStmt}
    (hs : f.Visits (.stmt s)) :
    (typeGuarantee p st σ).Holds w (execStmt ev sc s) fun _ _ ↦ True := by
  have hexpr : ∀ {w' : Layout TypeTree} {e : ASTExpr}, w ≤ w' → .expr e ∈ s.getChildren →
      (typeGuarantee p st σ).Holds w' (ev.expr sc e) fun w'' v ↦
        v.HasType p st σ w'' (f.typeOf st σ e) :=
    fun hle hmem ↦ hev.expr hf (hsc.mono hle) (hs.child hmem)
  have hstmt : ∀ {w' : Layout TypeTree} {s' : ASTStmt}, w ≤ w' → .stmt s' ∈ s.getChildren →
      (typeGuarantee p st σ).Holds w' (ev.stmt sc s') fun _ _ ↦ True :=
    fun hle hmem ↦ hev.stmt hf (hsc.mono hle) (hs.child hmem)
  have hlvalue : ∀ {e : ASTExpr}, .expr e ∈ s.getChildren → isAssignableOrDeRef e = true →
      (typeGuarantee p st σ).Holds w (lvalue ev sc e) fun w' a ↦
        w'.cells[a]? = some (f.typeOf st σ e) :=
    fun hmem hassign ↦ holds_lvalueTyped hσ hf h hev hsc (hs.child hmem)
      (hasCell_of_isAssignableOrDeRef hassign)
  have hcheck := CheckAssignable.endVisit_of_check hc (p.mem_accept hf hs.endVisit)
  cases s with
  | assignStmt n lhs rhs =>
    change (if isAssignableOrDeRef lhs = true then _ else _) = Except.ok () at hcheck
    split_ifs at hcheck with hassign
    rw [execStmt]
    refine (hlvalue List.mem_cons_self hassign).bind fun w₁ a hle₁ ha ↦ ?_
    refine (hexpr hle₁ (List.mem_cons_of_mem _ List.mem_cons_self)).bind fun w₂ v hle₂ hv ↦ ?_
    refine (CellRule.holds_owner (Q := fun w' _ ↦ w' = w₂) (fun _ ↦ rfl) fun _ _ _ _ ↦ rfl).bind ?_
    rintro w' owner - rfl
    refine (holds_emitEvent (Q := fun w'' _ ↦ w'' = w') fun _ ↦ rfl).bind ?_
    rintro w'' ⟨⟩ - rfl
    rw [← typeOf_assign hσ hf hs] at hv
    exact holds_storeTyped (Layout.get_mono hle₂ ha) hv
  | updateStmt n arg increment =>
    change (if isAssignableOrDeRef arg = true then _ else _) = Except.ok () at hcheck
    split_ifs at hcheck with hassign
    have hint : (f.typeOf st σ arg).label = .int := label_of_int hσ hf hs List.mem_cons_self
    rw [execStmt]
    refine (hlvalue List.mem_cons_self hassign).bind fun w₁ a hle₁ ha ↦ ?_
    refine (holds_loadTyped ha).bind fun w₂ v hle₂ hv ↦ ?_
    obtain ⟨x, rfl⟩ := hv.exists_int hσ hint
    exact holds_storeTyped (v := .int (if increment then x + 1 else x - 1))
      (Layout.get_mono hle₂ ha) hint
  | blockStmt n stmts =>
    rw [execStmt]
    exact Guarantee.holds_forM stmts w fun s' hs' w' hle ↦ hstmt hle (List.mem_map_of_mem hs')
  | whileStmt n condition body =>
    rw [execStmt]
    refine (hexpr le_rfl List.mem_cons_self).bind fun w₁ v hle₁ hv ↦ ?_
    obtain ⟨b, rfl⟩ := hv.exists_bool hσ (label_of_bool hσ hf hs List.mem_cons_self)
    change (typeGuarantee p st σ).Holds w₁ (if b then (do
      ev.stmt sc body
      ev.stmt sc (.whileStmt n condition body)) else pure ()) _
    split_ifs
    · exact (hstmt hle₁ (List.mem_cons_of_mem _ List.mem_cons_self)).bind fun w₂ _ hle₂ _ ↦
        hev.stmt hf (hsc.mono (hle₁.trans hle₂)) hs
    · exact Guarantee.holds_pure trivial
  | forStmt n item domain body =>
    change (if isAssignableOrDeRef item = true then _ else _) = Except.ok () at hcheck
    split_ifs at hcheck with hassign
    have hbody : ASTNode.stmt body ∈ (ASTStmt.forStmt n item domain body).getChildren :=
      List.mem_cons_of_mem _ (List.mem_append_right _ List.mem_cons_self)
    cases domain with
    | iterator iterator =>
      have htype := typeOf_eq hσ hf hs (e := iterator)
        (t := .array (astToVar st f.decl.node item)) List.mem_cons_self
      rw [hσ.array] at htype
      rw [execStmt]
      refine (hlvalue List.mem_cons_self hassign).bind fun w₁ a hle₁ ha ↦ ?_
      refine (hexpr hle₁ (List.mem_cons_of_mem _ List.mem_cons_self)).bind fun w₂ v hle₂ hv ↦ ?_
      rw [htype] at hv
      obtain ⟨base, len, rfl, helems⟩ := hv.exists_array hσ
      refine (holds_expect (k := Value.array?) rfl (Q := fun w' x ↦ w' = w₂ ∧ x = (base, len))
        ⟨rfl, rfl⟩).bind ?_
      rintro w' x - ⟨rfl, rfl⟩
      refine Guarantee.holds_forM _ w' fun i hi w₃ hle₃ ↦ ?_
      have helem := Layout.get_mono hle₃ (helems i (List.mem_range.1 hi))
      refine (holds_loadTyped helem).bind fun w₄ x hle₄ hx ↦ ?_
      refine (CellRule.holds_owner (Q := fun w' _ ↦ w' = w₄) (fun _ ↦ rfl)
        fun _ _ _ _ ↦ rfl).bind ?_
      rintro w₅ owner - rfl
      refine (holds_emitEvent (Q := fun w'' _ ↦ w'' = w₅) fun _ ↦ rfl).bind ?_
      rintro w'' ⟨⟩ - rfl
      refine (holds_storeTyped (Layout.get_mono ((hle₂.trans hle₃).trans hle₄) ha) hx).bind
        fun w₆ _ hle₆ _ ↦ hstmt (le_trans hle₁ (le_trans hle₂ (le_trans hle₃ (le_trans hle₄ hle₆)))) hbody
    | range rangeStart rangeEnd increment =>
      have hitem : f.typeOf st σ item = .node .int [] := by
        rw [typeOf_eq hσ hf hs (e := item) (t := .int) List.mem_cons_self, hσ.int]
      have hstart : (f.typeOf st σ rangeStart).label = .int :=
        label_of_int hσ hf hs (List.mem_append_left _ (by simp))
      have hend : (f.typeOf st σ rangeEnd).label = .int :=
        label_of_int hσ hf hs (List.mem_append_left _ (by simp))
      rw [execStmt]
      refine (hlvalue List.mem_cons_self hassign).bind fun w₁ a hle₁ ha ↦ ?_
      rw [hitem] at ha
      refine (hexpr hle₁ (List.mem_cons_of_mem _ (List.mem_append_left _ ?_))).bind
        fun w₂ v₁ hle₂ hv₁ ↦ ?_
      · cases increment <;> exact List.mem_cons_self
      obtain ⟨first, rfl⟩ := hv₁.exists_int hσ hstart
      refine (holds_expect (k := Value.int?) rfl (Q := fun w' x ↦ w' = w₂ ∧ x = first)
        ⟨rfl, rfl⟩).bind ?_
      rintro w' x - ⟨rfl, rfl⟩
      refine (hexpr (hle₁.trans hle₂) (List.mem_cons_of_mem _ (List.mem_append_left _ ?_))).bind
        fun w₃ v₂ hle₃ hv₂ ↦ ?_
      · cases increment <;> exact List.mem_cons_of_mem _ List.mem_cons_self
      obtain ⟨stop, rfl⟩ := hv₂.exists_int hσ hend
      refine (holds_expect (k := Value.int?) rfl (Q := fun w' y ↦ w' = w₃ ∧ y = stop)
        ⟨rfl, rfl⟩).bind ?_
      rintro w' y - ⟨rfl, rfl⟩
      have hle := (hle₁.trans hle₂).trans hle₃
      -- the rounds, whatever the increment is
      have hrounds : ∀ {w₄ : Layout TypeTree} (step : Word), w' ≤ w₄ →
          (typeGuarantee p st σ).Holds w₄ (do
            Memory.store a (.int x)
            ev.range sc a y step body) fun _ _ ↦ True := by
        intro w₄ step hle₄
        have ha' := Layout.get_mono ((hle₂.trans hle₃).trans hle₄) ha
        refine (holds_storeTyped ha' (v := .int x) (Library.Tree.label_node _ _)).bind fun w₅ _ hle₅ _ ↦ ?_
        exact hev.range hf (hsc.mono ((hle.trans hle₄).trans hle₅)) (hs.child hbody)
          (Layout.get_mono hle₅ ha')
      cases increment with
      | none => exact hrounds 1 le_rfl
      | some e =>
        have hinc : (f.typeOf st σ e).label = .int :=
          label_of_int hσ hf hs (List.mem_append_right _ (by simp))
        refine (hexpr hle (List.mem_cons_of_mem _ (List.mem_append_left _ ?_))).bind
          fun w₄ v₃ hle₄ hv₃ ↦ ?_
        · exact List.mem_cons_of_mem _ (List.mem_cons_of_mem _ List.mem_cons_self)
        obtain ⟨step, rfl⟩ := hv₃.exists_int hσ hinc
        exact (holds_expect (k := Value.int?) rfl (Q := fun _ _ ↦ True) trivial).bind
          fun w₅ step hle₅ _ ↦ hrounds step (hle₄.trans hle₅)
  | ifStmt n condition thenStmt elseStmt =>
    unfold execStmt
    dsimp only
    have hcond : ASTNode.expr condition ∈
        (ASTStmt.ifStmt n condition thenStmt elseStmt).getChildren := by
      cases elseStmt <;> exact List.mem_cons_self
    have hthen : ASTNode.stmt thenStmt ∈
        (ASTStmt.ifStmt n condition thenStmt elseStmt).getChildren := by
      cases elseStmt <;> exact List.mem_cons_of_mem _ List.mem_cons_self
    refine (hexpr le_rfl hcond).bind fun w₁ v hle₁ hv ↦ ?_
    obtain ⟨b, rfl⟩ := hv.exists_bool hσ (label_of_bool hσ hf hs List.mem_cons_self)
    refine (holds_expect (k := Value.bool?) rfl (Q := fun w' c ↦ w' = w₁ ∧ c = b)
      ⟨rfl, rfl⟩).bind ?_
    rintro w' c - ⟨rfl, rfl⟩
    split_ifs
    · exact hstmt hle₁ hthen
    · cases elseStmt with
      | none => exact Guarantee.holds_pure trivial
      | some s => exact hstmt hle₁ (by simp [ASTStmt.getChildren])
  | outputStmt n arg =>
    rw [execStmt]
    refine (hexpr le_rfl List.mem_cons_self).bind fun w₁ v _ hv ↦ ?_
    obtain ⟨x, rfl⟩ := hv.exists_int hσ (label_of_int hσ hf hs List.mem_cons_self)
    exact (holds_expect (k := Value.int?) rfl (Q := fun _ _ ↦ True) trivial).bind fun w₂ _ _ _ ↦
      holds_emitEvent fun _ ↦ trivial
  | errorStmt n arg =>
    rw [execStmt]
    refine (hexpr le_rfl List.mem_cons_self).bind fun w₁ v _ hv ↦ ?_
    obtain ⟨x, rfl⟩ := hv.exists_int hσ (label_of_int hσ hf hs List.mem_cons_self)
    exact (holds_expect (k := Value.int?) rfl (Q := fun _ _ ↦ True) trivial).bind fun w₂ _ _ _ ↦
      Guarantee.holds_fail (by simp [typeGuarantee, CellRule.guarantee])

/-- The rounds of a loop over a range keep the types of the cells. -/
theorem holds_execRangeTyped (hev : EvaluatorsSound p st σ ev) {sc : Scope}
    (hsc : ScopeTyped p st σ w f sc) {body : ASTStmt} (hbody : f.Visits (.stmt body)) {a : ℕ}
    (ha : w.cells[a]? = some (.node .int [])) (stop step : Word) :
    (typeGuarantee p st σ).Holds w (execRange ev sc a stop step body) fun _ _ ↦ True := by
  unfold execRange
  refine (holds_loadTyped ha).bind fun w₁ v hle₁ hv ↦ ?_
  obtain ⟨x, rfl⟩ := hv.exists_int hσ (Library.Tree.label_node _ _)
  change (typeGuarantee p st σ).Holds w₁ (if x.toInt < stop.toInt then _ else pure ()) _
  split_ifs
  · refine (hev.stmt hf (hsc.mono hle₁) hbody).bind fun w₂ _ hle₂ _ ↦ ?_
    refine (holds_loadTyped (Layout.get_mono (hle₁.trans hle₂) ha)).bind fun w₃ v hle₃ hv ↦ ?_
    obtain ⟨y, rfl⟩ := hv.exists_int hσ (Library.Tree.label_node _ _)
    have hle := (hle₁.trans hle₂).trans hle₃
    refine (holds_expect (k := Value.int?) rfl (Q := fun w' z ↦ w' = w₃ ∧ z = y)
      ⟨rfl, rfl⟩).bind ?_
    rintro w' z - ⟨rfl, rfl⟩
    refine Guarantee.Holds.bind (Q := fun _ _ ↦ True) (holds_storeTyped (v := .int (z + step))
      (Layout.get_mono hle ha) (Library.Tree.label_node _ _)) fun w₄ _ hle₄ _ ↦ ?_
    exact hev.range hf (hsc.mono (hle.trans hle₄)) hbody (Layout.get_mono (hle.trans hle₄) ha)
  · exact Guarantee.holds_pure trivial

end Expressions

/-! ### Runs -/

/-- Every number of levels keeps the types. -/
theorem evaluatorsSound (hσ : p.TypedBy st σ) (h : st.Describes p)
    (hc : CheckAssignable.check p = .ok ()) : ∀ n, EvaluatorsSound p st σ (evaluators p n)
  | 0 =>
    { expr := fun _ _ _ ↦ Guarantee.holds_timeout
      stmt := fun _ _ _ ↦ Guarantee.holds_timeout
      range := fun _ _ _ _ ↦ Guarantee.holds_timeout }
  | n + 1 =>
    { expr := fun hf hsc he ↦ by
        refine (holds_evalExprTyped hσ hf h hc (evaluatorsSound hσ h hc n) hsc he).bind
          fun w₁ v _ hv ↦ ?_
        refine (holds_emitEvent (Q := fun w' _ ↦ w' = w₁ ∧ p.MeetsRules st σ (.evaluated _ v))
          fun hmeets ↦ ⟨rfl, hmeets⟩).bind ?_
        rintro w' ⟨⟩ - ⟨rfl, hmeets⟩
        exact Guarantee.holds_pure (hv hmeets)
      stmt := fun hf hsc hs ↦
        holds_execStmtTyped hσ hf h hc (evaluatorsSound hσ h hc n) hsc hs
      range := fun hf hsc hbody ha ↦
        holds_execRangeTyped hσ hf (evaluatorsSound hσ h hc n) hsc hbody ha _ _ }

/-- In a run that evaluates only expressions whose types the typing gets right, no operator is applied
to a value of the wrong kind. -/
theorem ASTProgram.typeSound (hb : SymbolTable.build p = .ok st)
    (hc : CheckAssignable.check p = .ok ()) {levels : ℕ} {args input : ℕ → Word}
    {x : Execution Memory Event Failure Value} (hrun : p.run levels args input = some x)
    (hrules : ∃ σ, p.TypedBy st σ ∧ ∀ ev ∈ x.events, p.MeetsRules st σ ev) :
    x.ending ≠ .failure .wrongKind := by
  obtain ⟨σ, hσ, hrules⟩ := hrules
  have h := SymbolTable.build_spec hb
  obtain ⟨f, hmain, rfl⟩ := Option.map_eq_some_iff.1 hrun
  have hf : f ∈ p.functions := List.mem_of_find?_eq_some hmain
  have hname : f.name = "main" := by simpa using List.find?_some hmain
  -- the cells of the function names
  let w : Layout TypeTree := ⟨p.functions.map fun g ↦ σ (.tipVar g.decl.node)⟩
  have hinv : (typeGuarantee p st σ).inv w (p.initialMemory input) := by
    refine List.forall₂_map_left_iff.2 (List.forall₂_map_right_iff.2 (List.forall₂_same.2 ?_))
    intro g hg v hv
    obtain rfl := Option.some.inj hv
    exact ⟨rfl, g, hg, rfl⟩
  have hinvoke := holds_invokeTyped (w := w) h (evaluatorsSound hσ h hc levels) hf
    (show _ = ((List.range f.formals.length).map fun i ↦ Value.int (args i)).length by simp)
    (fun i g hg ↦ by simp [w, hg]) fun i d v hd hv ↦ by
      rw [List.getElem?_map] at hv
      obtain ⟨j, -, rfl⟩ := Option.map_eq_some_iff.1 hv
      -- the formals of `main` are ints
      refine label_of_int hσ hf f.visits_self ?_
      unfold endVisit endVisitFunction
      dsimp only
      rw [if_pos hname]
      exact List.mem_append_left _ (List.mem_map.2 ⟨d, List.mem_of_getElem? hd, rfl⟩)
  obtain ⟨-, hend⟩ := hinvoke _ hinv hrules
  intro hwrong
  rw [hwrong] at hend
  exact hend rfl

/-- `main(x) { return not (x > 0) ? 1 : -x; }` -/
def negateProgram : ASTProgram where
  functions :=
    [⟨0, ⟨1, "main"⟩, [⟨2, "x"⟩], [], [],
      ⟨3, .ternaryExpr 4
        (.notExpr 5 (.binaryExpr 6 .gt (.variableExpr 7 "x") (.numberExpr 8 0)))
        (.numberExpr 9 1) (.negExpr 10 (.variableExpr 11 "x"))⟩, false⟩]
  distinct := by decide

theorem ASTProgram.typeSound_negate : ∃ st x, SymbolTable.build negateProgram = .ok st ∧
    negateProgram.run 9 (fun _ ↦ 5) (fun _ ↦ 0) = some x ∧ x.ending ≠ .failure .wrongKind := by
  have hb : SymbolTable.build negateProgram = .ok ⟨[("main", 1, false)], [(1, [("x", 2)])], []⟩ := rfl
  refine ⟨_, _, hb, rfl, ASTProgram.typeSound hb rfl rfl ?_⟩
  set st : SymbolTable := ⟨[("main", 1, false)], [(1, [("x", 2)])], []⟩
  have hsound := Unifier.sound_empty.add
    (negateProgram.typeConstraints st ++ negateProgram.missingConstraints st)
  rcases hsound.solve with ⟨u, -, hcs, hsolved⟩ | ⟨⟨e, he⟩, -⟩
  · have hσ := hsolved.isSolution
      (fun _ ↦ rfl : ∀ c, TipType.Head.ctor (.cons c) = c) fun _ ↦ .int
    rw [show u.constraints = negateProgram.typeConstraints st ++ negateProgram.missingConstraints st
      from hcs] at hσ
    refine ⟨_, ⟨⟨hσ.regular, hσ.respects, fun c hc ↦ hσ.solves c (List.mem_append_left _ hc)⟩, ?_⟩,
      fun ev _ ↦ ASTProgram.meetsRules_of_solves
        (fun c hc ↦ hσ.solves c (List.mem_append_right _ hc)) ev⟩
    rintro node ⟨record, field, hmem⟩
    simp [negateProgram, ASTProgram.accept, ASTFunction.accept, ASTDeclNode.accept, visiting,
      ASTStmt.acceptList, ASTReturnStmt.accept, ASTExpr.accept] at hmem
  · have hok : (Unifier.empty.add (negateProgram.typeConstraints st ++
        negateProgram.missingConstraints st)).solve.toBool = true := by decide +kernel
    rw [he] at hok
    cases hok

/-- `main() { return not true + 1; }` -/
def notPlusOneProgram : ASTProgram where
  functions :=
    [⟨0, ⟨1, "main"⟩, [], [], [],
      ⟨2, .binaryExpr 3 .add (.notExpr 4 (.boolExpr 5 true)) (.numberExpr 6 1)⟩, false⟩]
  distinct := by decide

/-- An accepted program adds 1 to a bool. -/
theorem ASTProgram.not_typeSound_notPlusOne : ∃ st x,
    SymbolTable.build notPlusOneProgram = .ok st ∧
    CheckAssignable.check notPlusOneProgram = .ok () ∧ notPlusOneProgram.AcceptedMono st ∧
    notPlusOneProgram.run 9 (fun _ ↦ 0) (fun _ ↦ 0) = some x ∧ x.ending = .failure .wrongKind :=
  ⟨_, _, rfl, rfl, ⟨.creation, 0, _, rfl⟩, rfl, rfl⟩

end

end Sipc
