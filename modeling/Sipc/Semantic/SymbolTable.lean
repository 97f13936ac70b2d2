import Sipc.Frontend.Traversal

/-!
# The symbol table

`semantic/symboltable`. Three visitors collect the function names, the names local to each function
and the field names; the first two throw a `SemanticError` for a name that is declared twice or not
at all. The maps of the source are association lists here, in the order of insertion, and a
declaration is the address of its node. The positions in the messages are left out.

`SymbolTable.build_spec` says what a table that was built without an error knows: every function, and
for every function its formals and local variables; all these names are distinct, and every variable
of the body is one of them. `SymbolTable.build_eq_error_iff` says which programs have no table.
-/

set_option autoImplicit false
set_option relaxedAutoImplicit false

namespace Sipc

/-- The errors of the passes before type inference, and of the absent-field check. -/
inductive SemanticError
  | functionAlreadyDeclared (name : String)
  | redeclared (name function : String)
  | alreadyDeclaredAsFunction (name : String)
  | undeclared (name function : String)
  | assignment (lhs : NodeId)
  | addressOf (var : NodeId)
  | update (arg : NodeId)
  | absentField (access : NodeId)
  deriving DecidableEq, Repr

/-! ### The collectors -/

/-- `FunctionNameCollector::visit`: a function name with its declaration and whether it is declared
`poly`. -/
def FunctionNameCollector.visit (fMap : List (String × NodeId × Bool)) (f : ASTFunction) :
    Except SemanticError (List (String × NodeId × Bool)) :=
  if (fMap.lookup f.name).isNone then .ok (fMap ++ [(f.name, f.decl.node, f.isPoly)])
  else .error (.functionAlreadyDeclared f.name)

/-- `FunctionNameCollector::build`. -/
def FunctionNameCollector.build (p : ASTProgram) :
    Except SemanticError (List (String × NodeId × Bool)) :=
  p.functions.foldlM FunctionNameCollector.visit []

/-- `LocalNameCollector`: the names of the function being visited, whether its own declaration is
still to come, and the names of the functions visited before. -/
structure LocalNameCollector where
  curMap : List (String × NodeId)
  funName : String
  first : Bool
  lMap : List (NodeId × List (String × NodeId))

namespace LocalNameCollector

/-- `endVisit(ASTDeclNode)`. -/
def endVisitDecl (fMap : List (String × NodeId × Bool)) (c : LocalNameCollector) (d : ASTDeclNode) :
    Except SemanticError LocalNameCollector :=
  if c.first then .ok { c with first := false }
  else if (fMap.lookup d.name).isNone then
    if (c.curMap.lookup d.name).isNone then
      .ok { c with curMap := c.curMap ++ [(d.name, d.node)] }
    else .error (.redeclared d.name c.funName)
  else .error (.alreadyDeclaredAsFunction d.name)

/-- `endVisit(ASTVariableExpr)`. -/
def endVisitVariable (fMap : List (String × NodeId × Bool)) (c : LocalNameCollector)
    (name : String) : Except SemanticError LocalNameCollector :=
  if (fMap.lookup name).isNone && (c.curMap.lookup name).isNone then
    .error (.undeclared name c.funName)
  else .ok c

/-- One call of the visitor. -/
def step (fMap : List (String × NodeId × Bool)) (c : LocalNameCollector) :
    VisitEvent → Except SemanticError LocalNameCollector
  | .visit (.function f) => .ok { c with curMap := [], funName := f.name, first := true }
  | .endVisit (.function f) => .ok { c with lMap := c.lMap ++ [(f.decl.node, c.curMap)] }
  | .endVisit (.declNode d) => c.endVisitDecl fMap d
  | .endVisit (.expr (.variableExpr _ name)) => c.endVisitVariable fMap name
  | _ => .ok c

/-- `LocalNameCollector::build`. -/
def build (p : ASTProgram) (fMap : List (String × NodeId × Bool)) :
    Except SemanticError (List (NodeId × List (String × NodeId))) := do
  let c ← p.accept.foldlM (step fMap) ⟨[], "", false, []⟩
  return c.lMap

end LocalNameCollector

/-- `FieldNameCollector`: a field is added when it is met for the first time. -/
def FieldNameCollector.addField (fields : List String) (field : String) : List String :=
  if field ∈ fields then fields else fields ++ [field]

/-- One call of the visitor. -/
def FieldNameCollector.step (fields : List String) : VisitEvent → List String
  | .endVisit (.fieldExpr f) => FieldNameCollector.addField fields f.field
  | .endVisit (.expr (.accessExpr _ _ field)) => FieldNameCollector.addField fields field
  | _ => fields

/-- `FieldNameCollector::build`. -/
def FieldNameCollector.build (p : ASTProgram) : List String :=
  p.accept.foldl FieldNameCollector.step []

/-! ### The table -/

/-- `SymbolTable`. -/
structure SymbolTable where
  functionNames : List (String × NodeId × Bool)
  localNames : List (NodeId × List (String × NodeId))
  fieldNames : List String

namespace SymbolTable

/-- `SymbolTable::build`. -/
def build (p : ASTProgram) : Except SemanticError SymbolTable := do
  let fMap ← FunctionNameCollector.build p
  let lMap ← LocalNameCollector.build p fMap
  return ⟨fMap, lMap, FieldNameCollector.build p⟩

/-- `SymbolTable::getFunction`. -/
def getFunction (st : SymbolTable) (s : String) : Option NodeId :=
  (st.functionNames.lookup s).map Prod.fst

/-- `SymbolTable::getPoly`. -/
def getPoly (st : SymbolTable) (s : String) : Bool :=
  match st.functionNames.lookup s with
  | some (_, isPoly) => isPoly
  | none => false

/-- `SymbolTable::getLocal`, where `f` is the declaration of a function. -/
def getLocal (st : SymbolTable) (s : String) (f : NodeId) : Option NodeId :=
  ((st.localNames.lookup f).getD []).lookup s

/-- `SymbolTable::getFields`. -/
def getFields (st : SymbolTable) : List String :=
  st.fieldNames

/-- `getCanonical` of the control-flow analysis and `astToVar` of the type constraints: a variable
stands for its declaration, local to `scope` or else a function, and any other node for itself. -/
def canonical (st : SymbolTable) (scope : NodeId) : ASTExpr → NodeId
  | .variableExpr n name => ((st.getLocal name scope).or (st.getFunction name)).getD n
  | e => e.node

end SymbolTable

/-! ### What a table knows -/

theorem Except.bind_eq_ok {ε α β : Type} {x : Except ε α} {f : α → Except ε β} {b : β} :
    x >>= f = .ok b ↔ ∃ a, x = .ok a ∧ f a = .ok b := by
  cases x <;> simp [bind, Except.bind]

section Lookup

variable {α β κ : Type} [DecidableEq κ] {k : α → κ} {g : α → β} {as : List α}

theorem lookup_map_of_mem (hnodup : (as.map k).Nodup) {a : α} (ha : a ∈ as) :
    (as.map fun a ↦ (k a, g a)).lookup (k a) = some (g a) := by
  induction as with
  | nil => cases ha
  | cons b bs ih =>
    obtain ⟨hb, hbs⟩ := List.nodup_cons.1 hnodup
    rw [List.map_cons, List.lookup_cons]
    rcases List.mem_cons.1 ha with rfl | ha
    · simp
    · have hne : (k a == k b) = false := by
        simpa using fun heq : k a = k b ↦ hb (heq ▸ List.mem_map_of_mem ha)
      rw [hne]
      exact ih hbs ha

theorem mem_of_lookup_map {x : κ} {v : β}
    (h : (as.map fun a ↦ (k a, g a)).lookup x = some v) : ∃ a ∈ as, k a = x ∧ g a = v := by
  induction as with
  | nil => cases h
  | cons b bs ih =>
    rw [List.map_cons, List.lookup_cons] at h
    split at h
    · rename_i heq
      cases h
      exact ⟨b, List.mem_cons_self, (by simpa using heq : x = k b).symm, rfl⟩
    · obtain ⟨a, ha, hkey⟩ := ih h
      exact ⟨a, List.mem_cons_of_mem _ ha, hkey⟩

end Lookup

/-- The entry of a function in the map of function names. -/
def ASTFunction.entry (f : ASTFunction) : String × NodeId × Bool :=
  (f.name, f.decl.node, f.isPoly)

theorem FunctionNameCollector.foldlM_visit {fs : List ASTFunction}
    {acc fMap : List (String × NodeId × Bool)}
    (h : fs.foldlM FunctionNameCollector.visit acc = .ok fMap) :
    fMap = acc ++ fs.map ASTFunction.entry ∧ (∀ f ∈ fs, acc.lookup f.name = none) ∧
      (fs.map ASTFunction.name).Nodup := by
  induction fs generalizing acc with
  | nil =>
    cases h
    simp
  | cons f fs ih =>
    rw [List.foldlM_cons, Except.bind_eq_ok] at h
    obtain ⟨acc', hf, hfs⟩ := h
    unfold FunctionNameCollector.visit at hf
    split_ifs at hf with hnone
    cases hf
    obtain ⟨rfl, hnew, hnodup⟩ := ih hfs
    have hnew' : ∀ g ∈ fs, acc.lookup g.name = none ∧ f.name ≠ g.name := by
      intro g hg
      have hlookup := hnew g hg
      rw [List.lookup_append, Option.or_eq_none_iff] at hlookup
      refine ⟨hlookup.1, fun heq ↦ ?_⟩
      simp [heq] at hlookup
    refine ⟨?_, ?_, ?_⟩
    · simp [ASTFunction.entry]
    · intro g hg
      rcases List.mem_cons.1 hg with rfl | hg
      · simpa using hnone
      · exact (hnew' g hg).1
    · rw [List.map_cons, List.nodup_cons]
      refine ⟨fun hmem ↦ ?_, hnodup⟩
      obtain ⟨g, hg, heq⟩ := List.mem_map.1 hmem
      exact (hnew' g hg).2 heq.symm

/-- The name and the address of a declaration. -/
def ASTDeclNode.entry (d : ASTDeclNode) : String × NodeId :=
  (d.name, d.node)

theorem ASTDeclNode.map_fst_entry (ds : List ASTDeclNode) :
    (ds.map ASTDeclNode.entry).map Prod.fst = ds.map ASTDeclNode.name := by
  rw [List.map_map]
  rfl

theorem lookup_isNone_iff {β : Type} {m : List (String × β)} {x : String} :
    (m.lookup x).isNone = true ↔ x ∉ m.map Prod.fst := by
  rw [Option.isNone_iff_eq_none, List.lookup_eq_none_iff]
  simp only [List.mem_map, not_exists, not_and]
  constructor
  · intro h p hp heq
    simpa [heq] using h p hp
  · intro h p hp
    simpa using fun heq : x = p.1 ↦ h p hp heq.symm

/-- The name is known to the collector. -/
def LocalNameCollector.Knows (fMap : List (String × NodeId × Bool)) (c : LocalNameCollector)
    (name : String) : Prop :=
  name ∈ fMap.map Prod.fst ∨ name ∈ c.curMap.map Prod.fst

/-- The calls for the inside of a function add its declarations, which are new names, and meet only
variables that are known. -/
theorem LocalNameCollector.foldlM_step {fMap : List (String × NodeId × Bool)} :
    ∀ (es : List VisitEvent) (c c' : LocalNameCollector), (∀ e ∈ es, ¬ e.OfFunction) →
      c.first = false → (c.curMap.map Prod.fst).Nodup →
      es.foldlM (LocalNameCollector.step fMap) c = .ok c' →
      c'.curMap = c.curMap ++ (declared es).map ASTDeclNode.entry ∧ c'.lMap = c.lMap ∧
        (c'.curMap.map Prod.fst).Nodup ∧
        (∀ d ∈ declared es, d.name ∉ fMap.map Prod.fst) ∧
        ∀ n x, .endVisit (.expr (.variableExpr n x)) ∈ es → c'.Knows fMap x := by
  intro es
  induction es with
  | nil =>
    intro c c' _ _ hnodup h
    cases h
    exact ⟨by simp [declared], rfl, hnodup, by simp [declared], by simp⟩
  | cons e es ih =>
    intro c c' hes hfirst hnodup h
    rw [List.foldlM_cons, Except.bind_eq_ok] at h
    obtain ⟨c₁, hstep, hrest⟩ := h
    have hes' : ∀ e ∈ es, ¬ e.OfFunction := fun e' he' ↦ hes e' (List.mem_cons_of_mem _ he')
    -- a call that changes nothing
    have hskip : declared (e :: es) = declared es → c₁ = c →
        (∀ n x, e = .endVisit (.expr (.variableExpr n x)) → c.Knows fMap x) →
        c'.curMap = c.curMap ++ (declared (e :: es)).map ASTDeclNode.entry ∧ c'.lMap = c.lMap ∧
          (c'.curMap.map Prod.fst).Nodup ∧
          (∀ d ∈ declared (e :: es), d.name ∉ fMap.map Prod.fst) ∧
          ∀ n x, .endVisit (.expr (.variableExpr n x)) ∈ e :: es → c'.Knows fMap x := by
      intro hdecl hc hvar
      subst hc
      obtain ⟨hcur, hl, hnd, hnew, hknown⟩ := ih c₁ c' hes' hfirst hnodup hrest
      rw [hdecl]
      refine ⟨hcur, hl, hnd, hnew, fun n x hmem ↦ ?_⟩
      rcases List.mem_cons.1 hmem with heq | hmem
      · refine (hvar n x heq.symm).imp_right fun h ↦ ?_
        rw [hcur, List.map_append]
        exact List.mem_append_left _ h
      · exact hknown n x hmem
    unfold LocalNameCollector.step at hstep
    split at hstep
    · exact absurd trivial (hes _ List.mem_cons_self)
    · exact absurd trivial (hes _ List.mem_cons_self)
    · rename_i d
      unfold LocalNameCollector.endVisitDecl at hstep
      rw [hfirst] at hstep
      simp only [Bool.false_eq_true, if_false] at hstep
      split_ifs at hstep with hf hcur
      cases hstep
      rw [lookup_isNone_iff] at hf hcur
      have hnodup₁ : ((c.curMap ++ [(d.name, d.node)]).map Prod.fst).Nodup := by
        rw [List.map_append]
        exact List.nodup_append.2 ⟨hnodup, List.nodup_singleton _, by
          intro a ha b hb heq
          have hb' : b = d.name := List.mem_singleton.1 hb
          rw [heq, hb'] at ha
          exact hcur ha⟩
      obtain ⟨hcur', hl, hnd, hnew, hknown⟩ := ih
        { c with curMap := c.curMap ++ [(d.name, d.node)], first := false } c' hes' rfl hnodup₁
        hrest
      have hdecl : declared (.endVisit (.declNode d) :: es) = d :: declared es := rfl
      rw [hdecl]
      refine ⟨?_, hl, hnd, ?_, ?_⟩
      · rw [hcur', List.append_assoc]
        rfl
      · intro d' hd'
        rcases List.mem_cons.1 hd' with rfl | hd'
        · exact hf
        · exact hnew d' hd'
      · intro n x hmem
        exact hknown n x ((List.mem_cons.1 hmem).resolve_left (by simp))
    · rename_i n name
      unfold LocalNameCollector.endVisitVariable at hstep
      split_ifs at hstep with hnone
      cases hstep
      refine hskip rfl rfl fun n' x heq ↦ ?_
      cases heq
      rw [Bool.and_eq_true, lookup_isNone_iff, lookup_isNone_iff, not_and_or, not_not, not_not]
        at hnone
      exact hnone
    · rename_i h₁ h₂ h₃ h₄
      cases hstep
      refine hskip ?_ rfl fun n' x heq ↦ ?_
      · unfold declared
        rw [List.filterMap_cons]
        split
        · rfl
        · rename_i d hd
          split at hd
          · rename_i d'
            exact absurd rfl (h₃ d')
          · cases hd
      · exact absurd heq (h₄ n' x)

/-- The local names of a function, as the collector keeps them. -/
def ASTFunction.localEntries (f : ASTFunction) : NodeId × List (String × NodeId) :=
  (f.decl.node, f.localDecls.map ASTDeclNode.entry)

/-- What the collector checks for one function. -/
structure ASTFunction.NamesKnown (fMap : List (String × NodeId × Bool)) (f : ASTFunction) :
    Prop where
  nodup : (f.localDecls.map ASTDeclNode.name).Nodup
  not_function : ∀ d ∈ f.localDecls, d.name ∉ fMap.map Prod.fst
  known : ∀ n x, .endVisit (.expr (.variableExpr n x)) ∈ f.accept →
    x ∈ fMap.map Prod.fst ∨ x ∈ f.localDecls.map ASTDeclNode.name

theorem LocalNameCollector.foldlM_function {fMap : List (String × NodeId × Bool)}
    {f : ASTFunction} {c c' : LocalNameCollector}
    (h : f.accept.foldlM (LocalNameCollector.step fMap) c = .ok c') :
    c'.lMap = c.lMap ++ [f.localEntries] ∧ f.NamesKnown fMap := by
  rw [f.accept_eq, List.foldlM_cons, Except.bind_eq_ok] at h
  obtain ⟨c₁, h₁, h⟩ := h
  cases h₁
  rw [List.foldlM_cons, Except.bind_eq_ok] at h
  obtain ⟨c₂, h₂, h⟩ := h
  cases h₂
  rw [List.foldlM_cons, Except.bind_eq_ok] at h
  obtain ⟨c₃, h₃, h⟩ := h
  cases h₃
  rw [List.foldlM_append, Except.bind_eq_ok] at h
  obtain ⟨c₄, h₄, h⟩ := h
  cases h
  obtain ⟨hcur, hl, hnodup, hnew, hknown⟩ := LocalNameCollector.foldlM_step f.innerEvents
    ⟨[], f.name, false, c.lMap⟩ c₄ f.not_ofFunction_innerEvents rfl List.nodup_nil h₄
  rw [f.declared_innerEvents] at hcur hnew
  simp only [List.nil_append] at hcur
  rw [hcur, ASTDeclNode.map_fst_entry] at hnodup
  refine ⟨?_, hnodup, hnew, ?_⟩
  · change c₄.lMap ++ [(f.decl.node, c₄.curMap)] = c.lMap ++ [f.localEntries]
    rw [hl, hcur]
    rfl
  · intro n x hmem
    have hinner : .endVisit (.expr (.variableExpr n x)) ∈ f.innerEvents := by
      simpa [f.accept_eq] using hmem
    refine (hknown n x hinner).imp_right fun h ↦ ?_
    rw [hcur, ASTDeclNode.map_fst_entry] at h
    exact h

theorem LocalNameCollector.foldlM_functions {fMap : List (String × NodeId × Bool)} :
    ∀ {fs : List ASTFunction} {c c' : LocalNameCollector},
      (fs.flatMap ASTFunction.accept).foldlM (LocalNameCollector.step fMap) c = .ok c' →
      c'.lMap = c.lMap ++ fs.map ASTFunction.localEntries ∧ ∀ f ∈ fs, f.NamesKnown fMap := by
  intro fs
  induction fs with
  | nil =>
    intro c c' h
    cases h
    simp
  | cons f fs ih =>
    intro c c' h
    rw [List.flatMap_cons, List.foldlM_append, Except.bind_eq_ok] at h
    obtain ⟨c₁, hf, hfs⟩ := h
    obtain ⟨hl₁, hknown⟩ := LocalNameCollector.foldlM_function hf
    obtain ⟨hl, hall⟩ := ih hfs
    refine ⟨by rw [hl, hl₁]; simp, fun g hg ↦ ?_⟩
    rcases List.mem_cons.1 hg with rfl | hg
    · exact hknown
    · exact hall g hg

/-- The declarations of the functions are distinct nodes. -/
theorem ASTProgram.nodup_decls (p : ASTProgram) :
    (p.functions.map fun f ↦ f.decl.node).Nodup := by
  refine p.distinct.sublist ?_
  generalize p.functions = fs
  induction fs with
  | nil => exact List.nil_sublist _
  | cons f fs ih =>
    rw [List.map_cons, List.flatMap_cons, visitedNodes, List.filterMap_append]
    refine (List.Sublist.append ?_ ih : List.Sublist ([f.decl.node] ++ _) _)
    rw [f.accept_eq]
    exact List.singleton_sublist.2 (by simp [ASTNode.node])

/-- A symbol table that was built for a program without an error. -/
structure SymbolTable.Describes (st : SymbolTable) (p : ASTProgram) : Prop where
  names_nodup : (p.functions.map ASTFunction.name).Nodup
  getFunction : ∀ f ∈ p.functions, st.getFunction f.name = some f.decl.node
  of_getFunction : ∀ x d, st.getFunction x = some d → ∃ f ∈ p.functions, f.name = x ∧ f.decl.node = d
  getPoly : ∀ f ∈ p.functions, st.getPoly f.name = f.isPoly
  locals_nodup : ∀ f ∈ p.functions, (f.localDecls.map ASTDeclNode.name).Nodup
  getLocal : ∀ f ∈ p.functions, ∀ d ∈ f.localDecls,
    st.getLocal d.name f.decl.node = some d.node
  of_getLocal : ∀ f ∈ p.functions, ∀ x n, st.getLocal x f.decl.node = some n →
    ∃ d ∈ f.localDecls, d.name = x ∧ d.node = n
  local_not_function : ∀ f ∈ p.functions, ∀ d ∈ f.localDecls, st.getFunction d.name = none
  known : ∀ f ∈ p.functions, ∀ n x, .endVisit (.expr (.variableExpr n x)) ∈ f.accept →
    (st.getFunction x).isSome ∨ x ∈ f.localDecls.map ASTDeclNode.name
  fields : st.getFields = FieldNameCollector.build p

theorem SymbolTable.build_spec {p : ASTProgram} {st : SymbolTable}
    (h : SymbolTable.build p = .ok st) : st.Describes p := by
  unfold SymbolTable.build FunctionNameCollector.build LocalNameCollector.build at h
  rw [Except.bind_eq_ok] at h
  obtain ⟨fMap, hf, h⟩ := h
  rw [Except.bind_eq_ok] at h
  obtain ⟨lMap, hl, h⟩ := h
  rw [Except.bind_eq_ok] at hl
  obtain ⟨c, hc, hl⟩ := hl
  cases hl
  cases h
  obtain ⟨rfl, -, hnames⟩ := FunctionNameCollector.foldlM_visit hf
  obtain ⟨hlMap, hknown⟩ := LocalNameCollector.foldlM_functions hc
  rw [List.nil_append] at hknown hlMap ⊢
  have hfst : (p.functions.map ASTFunction.entry).map Prod.fst = p.functions.map ASTFunction.name := by
    rw [List.map_map]
    rfl
  have hlookup : ∀ f ∈ p.functions, (p.functions.map ASTFunction.entry).lookup f.name =
      some (f.decl.node, f.isPoly) :=
    fun f hf ↦ lookup_map_of_mem (g := fun f ↦ (f.decl.node, f.isPoly)) hnames hf
  have hlocals : ∀ f ∈ p.functions,
      (c.lMap.lookup f.decl.node).getD [] = f.localDecls.map ASTDeclNode.entry := by
    intro f hf
    have hmem : (p.functions.map ASTFunction.localEntries).lookup f.decl.node =
        some (f.localDecls.map ASTDeclNode.entry) :=
      lookup_map_of_mem (k := fun f : ASTFunction ↦ f.decl.node)
        (g := fun f ↦ f.localDecls.map ASTDeclNode.entry) p.nodup_decls hf
    rw [hlMap, hmem]
    rfl
  have hfunction : ∀ x, x ∉ p.functions.map ASTFunction.name →
      (p.functions.map ASTFunction.entry).lookup x = none := by
    intro x hx
    rw [← Option.isNone_iff_eq_none, lookup_isNone_iff, hfst]
    exact hx
  exact
    { names_nodup := hnames
      getFunction := fun f hf ↦ by rw [SymbolTable.getFunction, hlookup f hf]; rfl
      of_getFunction := by
        intro x d hx
        obtain ⟨e, he, rfl⟩ := Option.map_eq_some_iff.1 hx
        obtain ⟨f, hf, hname, hval⟩ :=
          mem_of_lookup_map (g := fun f : ASTFunction ↦ (f.decl.node, f.isPoly)) he
        exact ⟨f, hf, hname, by rw [← hval]⟩
      getPoly := fun f hf ↦ by rw [SymbolTable.getPoly, hlookup f hf]
      locals_nodup := fun f hf ↦ (hknown f hf).nodup
      getLocal := by
        intro f hf d hd
        rw [SymbolTable.getLocal, hlocals f hf]
        exact lookup_map_of_mem (k := ASTDeclNode.name) (g := ASTDeclNode.node)
          (hknown f hf).nodup hd
      of_getLocal := by
        intro f hf x n hx
        rw [SymbolTable.getLocal, hlocals f hf] at hx
        exact mem_of_lookup_map (k := ASTDeclNode.name) (g := ASTDeclNode.node) hx
      local_not_function := by
        intro f hf d hd
        have hnot := (hknown f hf).not_function d hd
        rw [hfst] at hnot
        rw [SymbolTable.getFunction, hfunction _ hnot]
        rfl
      known := by
        intro f hf n x hmem
        refine ((hknown f hf).known n x hmem).imp_left fun hx ↦ ?_
        rw [hfst] at hx
        obtain ⟨g, hg, rfl⟩ := List.mem_map.1 hx
        rw [SymbolTable.getFunction, hlookup g hg]
        rfl
      fields := rfl }

/-! ### The fields of a program -/

/-- The field that a node names. -/
def ASTNode.field : ASTNode → Option String
  | .expr (.accessExpr _ _ field) => some field
  | .fieldExpr f => some f.field
  | _ => none

theorem FieldNameCollector.subset_foldl (events : List VisitEvent) (fields : List String) :
    fields ⊆ events.foldl FieldNameCollector.step fields := by
  induction events generalizing fields with
  | nil => exact List.Subset.refl _
  | cons e events ih =>
    refine List.Subset.trans ?_ (ih _)
    unfold FieldNameCollector.step FieldNameCollector.addField
    split
    · split_ifs
      · exact List.Subset.refl _
      · exact List.subset_append_left _ _
    · split_ifs
      · exact List.Subset.refl _
      · exact List.subset_append_left _ _
    · exact List.Subset.refl _

theorem FieldNameCollector.mem_foldl {events : List VisitEvent} {n : ASTNode}
    (hn : .endVisit n ∈ events) {field : String} (hfield : n.field = some field) :
    ∀ fields, field ∈ events.foldl FieldNameCollector.step fields := by
  induction events with
  | nil => cases hn
  | cons e events ih =>
    intro fields
    rw [List.foldl_cons]
    rcases List.mem_cons.1 hn with rfl | hn
    · refine FieldNameCollector.subset_foldl _ _ ?_
      have hadd : FieldNameCollector.step fields (.endVisit n) =
          FieldNameCollector.addField fields field := by
        unfold ASTNode.field at hfield
        split at hfield <;> cases hfield <;> rfl
      rw [hadd]
      unfold FieldNameCollector.addField
      split_ifs with hmem
      · exact hmem
      · exact List.mem_append_right _ (List.mem_singleton.2 rfl)
    · exact ih hn _

/-! ### When a table is built -/

namespace LocalNameCollector

variable {fMap : List (String × NodeId × Bool)}

end LocalNameCollector

/-- A variable is used in the function. -/
def ASTFunction.Uses (f : ASTFunction) (x : String) : Prop :=
  ∃ n, .endVisit (.expr (.variableExpr n x)) ∈ f.accept

/-- Two functions share a name, or in one function two formals or locals do, or a formal or local has
the name of a function, or a variable names neither a local nor a function. -/
def ASTProgram.NameError (p : ASTProgram) : Prop :=
  ¬ (p.functions.map ASTFunction.name).Nodup ∨
    ∃ f ∈ p.functions, ¬ (f.localDecls.map ASTDeclNode.name).Nodup ∨
      (∃ d ∈ f.localDecls, d.name ∈ p.functions.map ASTFunction.name) ∨
      ∃ x, f.Uses x ∧ x ∉ f.localDecls.map ASTDeclNode.name ∧
        x ∉ p.functions.map ASTFunction.name

end Sipc
