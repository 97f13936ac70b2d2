import Sipc.Evaluation.CellRules
import Sipc.Semantic.Types.TypeInference

/-!
# The types of values

A typing of a program gives every type term a tree, such that the constraints of the visitor hold
(`ASTProgram.TypedBy`). A value has a type, relative to the types of the cells (`Value.HasType`), and
the class of the type tells its kind. The visitor lacks some rules (`missingRules`): it says nothing
about the result of `not`, of a minus sign and of an empty array literal, and of a repeated field it
reads the first initializer, while the last one counts.
-/

set_option autoImplicit false
set_option relaxedAutoImplicit false

namespace Sipc

open Library TypeConstraintVisitor

/-- The types that programs have: trees over the classes of types. -/
abbrev TypeTree := Library.Tree TipType.TipCtor

/-- The equations that the visitor leaves out for an expression. -/
def missingRules (st : SymbolTable) (scope : NodeId) : ASTExpr → List TypeConstraint
  | e@(.notExpr _ _) => [⟨astToVar st scope e, .bool⟩]
  | e@(.negExpr _ _) => [⟨astToVar st scope e, .int⟩]
  | e@(.arrayExpr n []) => [⟨astToVar st scope e, .array (.tipAlpha n)⟩]
  | .recordExpr _ fields =>
    st.getFields.map fun x ↦ ⟨fieldType st scope fields.reverse x, fieldType st scope fields x⟩
  | _ => []

/-- A solution of the constraints of a program in which no access is absent. -/
structure ASTProgram.TypedBy (p : ASTProgram) (st : SymbolTable) (σ : TipType → TypeTree) : Prop where
  solution : IsSolution (p.typeConstraints st) σ
  present : ∀ node, AbsentFieldChecker.HasAccess p.accept node →
    (σ (.tipVar node)).label ≠ .absentField

/-- The typing meets the missing rules for what the event evaluates. -/
def ASTProgram.MeetsRules (p : ASTProgram) (st : SymbolTable) (σ : TipType → TypeTree) :
    Event → Prop
  | .evaluated e _ => ∀ f ∈ p.functions, f.Visits (.expr e) →
    ∀ c ∈ missingRules st f.decl.node e, σ c.lhs = σ c.rhs
  | _ => True

/-- The missing rules of all expressions of a program. -/
def ASTProgram.missingConstraints (st : SymbolTable) (p : ASTProgram) : List TypeConstraint :=
  p.functions.flatMap fun f ↦ (visitedExprs f.accept).flatMap (missingRules st f.decl.node)

/-- A solution of the constraints with all missing rules meets them in every event. -/
theorem ASTProgram.meetsRules_of_solves {p : ASTProgram} {st : SymbolTable} {σ : TipType → TypeTree}
    (h : ∀ c ∈ p.missingConstraints st, σ c.lhs = σ c.rhs) (ev : Event) : p.MeetsRules st σ ev := by
  cases ev with
  | evaluated e v =>
    intro f hf he c hc
    exact h c (List.mem_flatMap.2 ⟨f, hf, List.mem_flatMap.2 ⟨e, mem_visitedExprs.2 he, hc⟩⟩)
  | _ => trivial

/-! ### Values and their types -/

/-- The class of the types that a value has. -/
def Value.ctor : Value → TipType.TipCtor
  | .int _ => .int
  | .bool _ => .bool
  | .function _ => .function
  | .null | .pointer _ => .ref
  | .array _ _ => .array
  | .record _ _ => .record

/-- The value has the type, given the types of the cells. A record without a field has the absent
field there. -/
def Value.HasType (p : ASTProgram) (st : SymbolTable) (σ : TipType → TypeTree)
    (w : Layout TypeTree) : Value → TypeTree → Prop
  | .int _, t => t.label = .int
  | .bool _, t => t.label = .bool
  | .function d, t => t = σ (.tipVar d) ∧ ∃ f ∈ p.functions, f.decl.node = d
  | .null, t => t.label = .ref
  | .pointer a, t => ∃ u, t = .node .ref [u] ∧ w.cells[a]? = some u
  | .array base n, t =>
    ∃ u, t = .node .array [u] ∧ ∀ i < n.toInt.toNat, w.cells[base + 1 + i]? = some u
  | .record _ fields, t => ∃ us, t = .node .record us ∧
    ∀ x u, (x, u) ∈ st.getFields.zip us →
      match fields.lookup x with
      | some a => w.cells[a]? = some u
      | none => u.label = .absentField

section

variable {p : ASTProgram} {st : SymbolTable} {σ : TipType → TypeTree}

theorem Value.HasType.mono {v w : Layout TypeTree} {x : Value} {t : TypeTree} (h : v ≤ w)
    (hx : x.HasType p st σ v t) : x.HasType p st σ w t := by
  cases x with
  | pointer a =>
    obtain ⟨u, rfl, ha⟩ := hx
    exact ⟨u, rfl, Layout.get_mono h ha⟩
  | array base n =>
    obtain ⟨u, rfl, hu⟩ := hx
    exact ⟨u, rfl, fun i hi ↦ Layout.get_mono h (hu i hi)⟩
  | record base fields =>
    obtain ⟨us, rfl, hus⟩ := hx
    refine ⟨us, rfl, fun f u hf ↦ ?_⟩
    have := hus f u hf
    split
    · rename_i a ha
      rw [ha] at this
      exact Layout.get_mono h this
    · rename_i ha
      rw [ha] at this
      exact this
  | _ => exact hx

/-- The rule of the typing: a cell holds values of its type only. -/
def typeRule (p : ASTProgram) (st : SymbolTable) (σ : TipType → TypeTree) : CellRule TypeTree where
  good w t c := ∀ v, c.content = some v → v.HasType p st σ w t
  mono h hc v hv := (hc v hv).mono h

/-- What is shown of a run: the cells keep their types, and no failure is of the wrong kind. -/
def typeGuarantee (p : ASTProgram) (st : SymbolTable) (σ : TipType → TypeTree) :
    Guarantee Memory Event Failure (Layout TypeTree) :=
  (typeRule p st σ).guarantee (p.MeetsRules st σ) (fun _ ↦ True) (· ≠ .wrongKind)

namespace ASTProgram.TypedBy

variable (hσ : p.TypedBy st σ)

include hσ

theorem solves {f : ASTFunction} (hf : f ∈ p.functions) {n : ASTNode} (hn : f.Visits n) :
    ∀ c ∈ endVisit st f.decl.node n, σ c.lhs = σ c.rhs := fun c hc ↦
  hσ.solution.solves c (List.mem_flatMap.2 ⟨f, hf, List.mem_flatMap.2 ⟨_, hn.endVisit, hc⟩⟩)

theorem int : σ .int = .node .int [] :=
  hσ.solution.respects _ _ rfl

theorem bool : σ .bool = .node .bool [] :=
  hσ.solution.respects _ _ rfl

theorem absentField : σ .absentField = .node .absentField [] :=
  hσ.solution.respects _ _ rfl

theorem ref (t : TipType) : σ (.ref t) = .node .ref [σ t] :=
  hσ.solution.respects _ _ rfl

theorem array (t : TipType) : σ (.array t) = .node .array [σ t] :=
  hσ.solution.respects _ _ rfl

theorem record (ts : List TipType) : σ (.record ts) = .node .record (ts.map σ) :=
  hσ.solution.respects _ _ rfl

theorem function (ps : List TipType) (r : TipType) :
    σ (.function ps r) = .node .function (ps.map σ ++ [σ r]) := by
  rw [hσ.solution.respects _ _ rfl]
  simp [TipType.arguments]

/-- The type of a function is that of its formals and its result. -/
theorem functionType {f : ASTFunction} (hf : f ∈ p.functions) :
    σ (.tipVar f.decl.node) = .node .function
      (f.formals.map (fun d ↦ σ (.tipVar d.node)) ++ [σ (astToVar st f.decl.node f.ret.arg)]) := by
  have hc := hσ.solves hf f.visits_self
    ⟨declToVar f.decl, .function (f.formals.map declToVar) (astToVar st f.decl.node f.ret.arg)⟩ (by
      unfold endVisit endVisitFunction
      dsimp only
      split_ifs <;> simp)
  rw [hσ.function, List.map_map] at hc
  exact hc

end ASTProgram.TypedBy

/-- The class of a type tells the kind of its values. -/
theorem Value.HasType.ctor_eq (hσ : p.TypedBy st σ) {w : Layout TypeTree} {v : Value} {t : TypeTree}
    (h : v.HasType p st σ w t) : v.ctor = t.label := by
  cases v with
  | function d =>
    obtain ⟨rfl, f, hf, rfl⟩ := h
    rw [hσ.functionType hf, Library.Tree.label_node]
    rfl
  | pointer a | array base n | record base fields =>
    obtain ⟨u, rfl, -⟩ := h
    rw [Library.Tree.label_node]
    rfl
  | _ => exact Eq.symm h

/-- The type of an expression of a function. -/
def ASTFunction.typeOf (f : ASTFunction) (st : SymbolTable) (σ : TipType → TypeTree) (e : ASTExpr) :
    TypeTree :=
  σ (astToVar st f.decl.node e)

/-- The names of a call lead to cells of the types of their declarations. -/
structure ScopeTyped (p : ASTProgram) (st : SymbolTable) (σ : TipType → TypeTree)
    (w : Layout TypeTree) (f : ASTFunction) (sc : Scope) : Prop where
  lookup : ∀ n x, f.Visits (.expr (.variableExpr n x)) → ∃ a, sc.names.lookup x = some a ∧
    w.cells[a]? = some (f.typeOf st σ (.variableExpr n x))
  functions : ∀ (i : ℕ) (g : ASTFunction), p.functions[i]? = some g →
    w.cells[i]? = some (σ (.tipVar g.decl.node))

theorem ScopeTyped.mono {v w : Layout TypeTree} {f : ASTFunction} {sc : Scope} (h : v ≤ w)
    (hs : ScopeTyped p st σ v f sc) : ScopeTyped p st σ w f sc where
  lookup n x hx := by
    obtain ⟨a, ha, hu⟩ := hs.lookup n x hx
    exact ⟨a, ha, Layout.get_mono h hu⟩
  functions i g hg := Layout.get_mono h (hs.functions i g hg)

/-- What is shown of the levels of evaluation. -/
structure EvaluatorsSound (p : ASTProgram) (st : SymbolTable) (σ : TipType → TypeTree)
    (ev : Evaluators) : Prop where
  expr : ∀ {w : Layout TypeTree} {f : ASTFunction} {sc : Scope} {e : ASTExpr}, f ∈ p.functions →
    ScopeTyped p st σ w f sc → f.Visits (.expr e) →
    (typeGuarantee p st σ).Holds w (ev.expr sc e) fun w' v ↦ v.HasType p st σ w' (f.typeOf st σ e)
  stmt : ∀ {w : Layout TypeTree} {f : ASTFunction} {sc : Scope} {s : ASTStmt}, f ∈ p.functions →
    ScopeTyped p st σ w f sc → f.Visits (.stmt s) →
    (typeGuarantee p st σ).Holds w (ev.stmt sc s) fun _ _ ↦ True
  range : ∀ {w : Layout TypeTree} {f : ASTFunction} {sc : Scope} {a : ℕ} {stop step : Word}
    {body : ASTStmt}, f ∈ p.functions → ScopeTyped p st σ w f sc → f.Visits (.stmt body) →
    w.cells[a]? = some (.node .int []) →
    (typeGuarantee p st σ).Holds w (ev.range sc a stop step body) fun _ _ ↦ True

theorem forall_mem_of_forall₂ {α β : Type} {R : α → β → Prop} {P : β → Prop} {as : List α}
    {bs : List β} (h : List.Forall₂ R as bs) (hP : ∀ a ∈ as, ∀ b, R a b → P b) : ∀ b ∈ bs, P b := by
  induction h with
  | nil => exact List.forall_mem_nil _
  | cons hab _ ih =>
    refine List.forall_mem_cons.2 ⟨hP _ List.mem_cons_self _ hab, ih fun a ha ↦ ?_⟩
    exact hP a (List.mem_cons_of_mem _ ha)

theorem lookup_map_fst {α β : Type} (key : α → String) (x : String) : ∀ l : List (α × β),
    (l.map fun q ↦ (key q.1, q.2)).lookup x = (l.find? fun q ↦ x = key q.1).map Prod.snd
  | [] => rfl
  | q :: l => by
    rw [List.map_cons, List.lookup_cons, List.find?_cons]
    by_cases h : x = key q.1
    · simp [h]
    · have hne : (x == key q.1) = false := by simpa using h
      rw [hne, decide_eq_false h]
      exact lookup_map_fst key x l

/-- The cell of a field is that of the last initializer with its name. -/
theorem lookup_fieldCells (x : String) (fields : List ASTFieldExpr) (base : ℕ) :
    (∃ i fe, fields.reverse.find? (fun fe ↦ x = fe.field) = some fe ∧ fields[i]? = some fe ∧
      ((fields.map ASTFieldExpr.field).zipIdx base).reverse.lookup x = some (base + i)) ∨
    (fields.reverse.find? (fun fe ↦ x = fe.field) = none ∧
      ((fields.map ASTFieldExpr.field).zipIdx base).reverse.lookup x = none) := by
  have hcells : ((fields.map ASTFieldExpr.field).zipIdx base).reverse =
      (fields.zipIdx base).reverse.map fun q ↦ (q.1.field, q.2) := by
    rw [List.zipIdx_map, List.map_reverse]
    rfl
  have hfields : fields.reverse = (fields.zipIdx base).reverse.map Prod.fst := by
    rw [List.map_reverse, List.zipIdx_map_fst]
  rw [hcells, lookup_map_fst, hfields, List.find?_map]
  change (∃ i fe, ((fields.zipIdx base).reverse.find? fun q ↦ x = q.1.field).map Prod.fst = some fe ∧
    fields[i]? = some fe ∧ _) ∨ (((fields.zipIdx base).reverse.find? fun q ↦ x = q.1.field).map
      Prod.fst = none ∧ _)
  cases hq : (fields.zipIdx base).reverse.find? fun q ↦ x = q.1.field with
  | none => exact .inr ⟨rfl, rfl⟩
  | some q =>
    obtain ⟨fe, k⟩ := q
    have hmem := List.mem_reverse.1 (List.mem_of_find?_eq_some hq)
    obtain ⟨hle, hget⟩ := List.mk_mem_zipIdx_iff_le_and_getElem?_sub.1 hmem
    exact .inl ⟨k - base, fe, rfl, hget, by simp [Nat.add_sub_cancel' hle]⟩

theorem mem_zip_map {α β : Type} {a : α} : ∀ {as : List α}, a ∈ as → ∀ (g : α → β),
    (a, g a) ∈ as.zip (as.map g)
  | b :: bs, ha, g => by
    rw [List.map_cons, List.zip_cons_cons]
    rcases List.mem_cons.1 ha with rfl | ha
    · exact List.mem_cons_self
    · exact List.mem_cons_of_mem _ (mem_zip_map ha g)

/-! ### Kinds -/

section Kinds

variable (hσ : p.TypedBy st σ) {w : Layout TypeTree} {v : Value} {t : TypeTree}

include hσ

theorem Value.HasType.exists_int (h : v.HasType p st σ w t) (ht : t.label = .int) :
    ∃ x, v = .int x := by
  have hctor := h.ctor_eq hσ
  rw [ht] at hctor
  cases v <;> first | exact ⟨_, rfl⟩ | cases hctor

theorem Value.HasType.exists_bool (h : v.HasType p st σ w t) (ht : t.label = .bool) :
    ∃ x, v = .bool x := by
  have hctor := h.ctor_eq hσ
  rw [ht] at hctor
  cases v <;> first | exact ⟨_, rfl⟩ | cases hctor

theorem Value.HasType.exists_function (h : v.HasType p st σ w t) (ht : t.label = .function) :
    ∃ f ∈ p.functions, v = .function f.decl.node ∧ t = σ (.tipVar f.decl.node) := by
  have hctor := h.ctor_eq hσ
  rw [ht] at hctor
  cases v with
  | function d =>
    obtain ⟨rfl, f, hf, rfl⟩ := h
    exact ⟨f, hf, rfl, rfl⟩
  | _ => cases hctor

theorem Value.HasType.exists_array {u : TypeTree} (h : v.HasType p st σ w (.node .array [u])) :
    ∃ base n, v = .array base n ∧ ∀ i < n.toInt.toNat, w.cells[base + 1 + i]? = some u := by
  have hctor := h.ctor_eq hσ
  rw [Library.Tree.label_node] at hctor
  cases v with
  | array base n =>
    obtain ⟨u', heq, hu⟩ := h
    obtain ⟨-, hlist⟩ := Library.Tree.node_inj.1 heq
    obtain rfl : u = u' := List.head_eq_of_cons_eq hlist
    exact ⟨base, n, rfl, hu⟩
  | _ => cases hctor

theorem Value.HasType.exists_record {us : List TypeTree}
    (h : v.HasType p st σ w (.node .record us)) :
    ∃ base fields, v = .record base fields ∧ ∀ x u, (x, u) ∈ st.getFields.zip us →
      match fields.lookup x with
      | some a => w.cells[a]? = some u
      | none => u.label = .absentField := by
  have hctor := h.ctor_eq hσ
  rw [Library.Tree.label_node] at hctor
  cases v with
  | record base fields =>
    obtain ⟨us', heq, hu⟩ := h
    obtain ⟨-, rfl⟩ := Library.Tree.node_inj.1 heq
    exact ⟨base, fields, rfl, hu⟩
  | _ => cases hctor

/-- A pointer is null, or points to a cell of its type. -/
theorem holds_dereference {u : TypeTree} (h : v.HasType p st σ w (.node .ref [u])) :
    (typeGuarantee p st σ).Holds w v.dereference fun w' a ↦ w'.cells[a]? = some u := by
  have hctor := h.ctor_eq hσ
  rw [Library.Tree.label_node] at hctor
  cases v with
  | pointer a =>
    obtain ⟨u', heq, hu⟩ := h
    obtain ⟨-, hlist⟩ := Library.Tree.node_inj.1 heq
    obtain rfl : u = u' := List.head_eq_of_cons_eq hlist
    exact Guarantee.holds_pure hu
  | null => exact Guarantee.holds_fail (by simp [typeGuarantee, CellRule.guarantee])
  | _ => cases hctor

end Kinds

section Rules

variable {w : Layout TypeTree} {v : Value} {t : TypeTree}

theorem holds_expect {α : Type} {k : Value → Option α} {x : α} (h : k v = some x)
    {Q : Layout TypeTree → α → Prop} (hQ : Q w x) :
    (typeGuarantee p st σ).Holds w (expect k v) Q := by
  unfold expect
  rw [h]
  exact Guarantee.holds_pure hQ

/-- A value loaded from a cell has the type of the cell. -/
theorem holds_loadTyped {a : ℕ} (ha : w.cells[a]? = some t) :
    (typeGuarantee p st σ).Holds w (Memory.load a) fun w' v ↦ v.HasType p st σ w' t := by
  refine CellRule.holds_load (by simp) fun t' c v ht' hgood hv ↦ ?_
  rw [ha] at ht'
  obtain rfl := Option.some.inj ht'
  exact hgood v hv

theorem holds_storeTyped {a : ℕ} (ha : w.cells[a]? = some t) (hv : v.HasType p st σ w t) :
    (typeGuarantee p st σ).Holds w (Memory.store a v) fun _ _ ↦ True := by
  refine CellRule.holds_store (fun t' c ht' hgood x hx ↦ ?_) trivial
  rw [ha] at ht'
  obtain rfl := Option.some.inj ht'
  obtain rfl := Option.some.inj hx
  exact hv

theorem holds_emitEvent {e : Event} {Q : Layout TypeTree → Unit → Prop}
    (hQ : p.MeetsRules st σ e → Q w ()) : (typeGuarantee p st σ).Holds w (Run.emit e) Q :=
  Guarantee.holds_emit fun h ↦ ⟨trivial, hQ h⟩

/-- Values in new cells. -/
theorem holds_allocateTyped {vs : List Value} {ts : List TypeTree}
    (h : List.Forall₂ (fun v t ↦ v.HasType p st σ w t) vs ts) :
    (typeGuarantee p st σ).Holds w
      (Memory.allocate (⟨none, none⟩ :: vs.map fun v ↦ ⟨none, some v⟩)) fun w' base ↦
        ∀ i t, ts[i]? = some t → w'.cells[base + 1 + i]? = some t := by
  refine Guarantee.Holds.mono (CellRule.holds_allocate (l := .node .int [] :: ts) ?_)
    fun w' base _ hcells i t hi ↦ ?_
  · refine List.Forall₂.cons (fun v hv ↦ by cases hv) (List.forall₂_map_right_iff.2 ?_)
    refine List.Forall₂.imp (fun t v hv x hx ↦ ?_) h.flip
    obtain rfl := Option.some.inj hx
    exact Value.HasType.mono (w.le_add _) hv
  · rw [Nat.add_assoc, Nat.add_comm 1 i]
    exact hcells (i + 1) t hi

end Rules

end

end Sipc
