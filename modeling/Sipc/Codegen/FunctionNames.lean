import Sipc.Codegen.SameProgram

/-!
# The names of the LLVM functions

The functions of a program, the `_tip_main` that `main` becomes and the functions of the runtime share the
names of one module. `ASTProgram.functionNaming_iff` says when every function of the program gets an
LLVM function of its own and every call of the runtime goes to the runtime.

They do but for two kinds of clashes: a program with a `main` and a function that is called `_tip_main`,
and a function with the name of a runtime function that the program calls.
-/

set_option autoImplicit false
set_option relaxedAutoImplicit false

namespace Sipc

open Llvm Library

/-- The code of the first `i` functions is generated. -/
def ASTProgram.Reaches (p : ASTProgram) (fields : List String) (i : ℕ) (s : CodegenState) : Prop :=
  Run.Returns (do p.declareFunctions fields; (p.functions.take i).forM ASTFunction.generate)
    CodegenState.initial () s

/-- Every function of the program has an LLVM function of its own, the one in its place of the dispatch
table, and what the code generator calls of the runtime has the name of the runtime. -/
structure ASTProgram.FunctionNaming (p : ASTProgram) (fields : List String) : Prop where
  distinct : ∀ i s, p.Reaches fields i s → ∀ f ∈ p.functions, ∀ g ∈ p.functions, ∀ F t t',
    Run.Returns (getFunction f.name) s F t → Run.Returns (getFunction g.name) s F t' → f = g
  receives : ∀ i s f, p.Reaches fields i s → p.functions[i]? = some f →
    ∃ F, s.module.dispatchTable[i]? = some F ∧ Run.Returns (getFunction f.name) s F s
  index : ∀ j s, p.Reaches fields j s → ∀ i f, p.functions[i]? = some f →
    s.functionIndex f.name = some i
  runtime : ∀ s, p.Reaches fields p.functions.length s → ∀ r args,
    .call (.function r) args ∈ s.module.instructions →
      r.module = s.serial ∧ (s.nop = some r ∨ ∃ x, s.Refers x r) ∧ ∀ x, s.Refers x r →
        s.module.names[r.index]? = some x.symbol ∧ r ∉ s.module.dispatchTable

/-- No two names of the program clash: `main` becomes `_tip_main`, and the runtime has its own. -/
structure ASTProgram.NamesApart (p : ASTProgram) : Prop where
  main : ¬ ("main" ∈ p.functions.map ASTFunction.name ∧
    "_tip_main" ∈ p.functions.map ASTFunction.name)
  runtime : ∀ x, p.CallsRuntime x → x.symbol ∉ p.functions.map ASTFunction.name

/-! ### The fields of a program -/

/-- The symbol table has every field that the code looks up. -/
theorem SymbolTable.Describes.knowsFields {p : ASTProgram} {st : SymbolTable} (h : st.Describes p) :
    p.KnowsFields st.getFields := by
  intro f hf n hn field hfield
  rw [h.fields]
  refine FieldNameCollector.mem_foldl (n := n) ?_ hfield []
  exact List.mem_flatMap.2 ⟨f, hf, f.codeEvents_subset hn⟩

/-! ### The names in the module -/

section Names

variable {p : ASTProgram}

theorem llvmName_eq_symbol_iff {name : String} (x : RuntimeFunction) :
    llvmName name = x.symbol ↔ name = x.symbol := by
  have hmain : "_tip_main" ≠ x.symbol ∧ "main" ≠ x.symbol := by
    rcases x with _ | _ | (_ | _ | _) <;> decide
  unfold llvmName
  split_ifs with hname
  · subst hname
    exact iff_of_false hmain.1 hmain.2
  · exact Iff.rfl

/-- The functions of a program take the name of a runtime function only if one of them is called so. -/
theorem symbol_mem_declarations {fs : List ASTFunction} (x : RuntimeFunction) :
    x.symbol ∈ (declarations fs).map Llvm.Function.name ↔ x.symbol ∈ fs.map ASTFunction.name := by
  have hnop : x.symbol ≠ "llvm.donothing" := by
    rcases x with _ | _ | (_ | _ | _) <;> decide
  rw [mem_declarations, or_iff_right hnop, List.mem_map]
  simp only [llvmName_eq_symbol_iff]

theorem symbol_mem_create {m : Module} {name : String} {args : List String} {k : Kind}
    {x : RuntimeFunction} (hname : name ≠ x.symbol) :
    x.symbol ∈ (m.create name args k).names ↔ x.symbol ∈ m.names := by
  rw [Module.names_create, List.mem_append, List.mem_singleton]
  exact or_iff_left (x.freshName_ne hname m).symm

theorem Llvm.CodegenState.names_undefinedMain (s : CodegenState) : s.undefinedMain.module.names =
    (((s.module.create "_tip_main" [] .int).addBlock s.module.functions.length).create
      "_tip_main_undefined" [] .void).names := by
  unfold undefinedMain
  exact (Module.names_modifyBlock _).trans (Module.names_modifyBlock _)

/-- The same after `_tip_main` is made sure of, and for the module that the functions are generated in. -/
theorem symbol_mem_withMain (s : CodegenState) {x : RuntimeFunction} (hx : x ≠ .undefinedMain) :
    x.symbol ∈ (p.dispatching s).withMain.module.names ↔
      x.symbol ∈ p.functions.map ASTFunction.name := by
  have hdispatching : x.symbol ∈ (p.dispatching s).module.names ↔
      x.symbol ∈ p.functions.map ASTFunction.name := symbol_mem_declarations x
  have hmain : "_tip_main" ≠ x.symbol := by
    rcases x with _ | _ | (_ | _ | _) <;> decide
  have hundef : "_tip_main_undefined" ≠ x.symbol := fun h ↦
    hx (RuntimeFunction.symbol_injective (h.symm : x.symbol = RuntimeFunction.undefinedMain.symbol))
  unfold CodegenState.withMain
  split_ifs
  · rw [CodegenState.names_undefinedMain, symbol_mem_create hundef, Module.names_addBlock,
      symbol_mem_create hmain, hdispatching]
  · exact hdispatching

theorem symbol_mem_declared (fields : List String) (s : CodegenState) (i : Intrinsic) :
    i.symbol ∈ (p.declared fields s).module.names ↔ i.symbol ∈ p.functions.map ASTFunction.name := by
  rw [(p.declared_module fields s).1]
  unfold CodegenState.withCalloc
  have hcalloc : "calloc" ≠ (RuntimeFunction.intrinsic i).symbol := by cases i <;> decide
  exact (symbol_mem_create hcalloc).trans (symbol_mem_withMain s (x := .intrinsic i) nofun)

/-- `calloc` has its name unless a function of the program has it. -/
theorem ASTProgram.named_calloc (p : ASTProgram) (fields : List String) (s : CodegenState) :
    ∃ r name, (p.declared fields s).calloc = some r ∧
      r.module = s.serial + 1 ∧ r.returns = .pointer ∧
      (p.declared fields s).module.names[r.index]? = some name ∧
        (name = "calloc" ↔ "calloc" ∉ p.functions.map ASTFunction.name) := by
  obtain ⟨hmodule, -, hcalloc⟩ := p.declared_module fields s
  obtain ⟨name, hname, hsymbol⟩ := Module.named_create
    { (p.dispatching s).withMain.module with numInputs := (p.dispatching s).withMain.numTIPArgs }
    "calloc" [] .pointer
  refine ⟨_, name, hcalloc, by simp, rfl, ?_, ?_⟩
  · rw [hmodule]
    exact hname
  · exact hsymbol.trans (not_congr (symbol_mem_withMain s (x := .calloc) nofun))

/-- The function that the `_tip_main` of a program without `main` calls. -/
def ASTProgram.undefinedRef (p : ASTProgram) (s : CodegenState) (r : FunctionRef) : Prop :=
  "main" ∉ p.functions.map ASTFunction.name ∧ r = (p.dispatching s).undefinedRef

theorem ASTProgram.isNone_functionIndex_main (hnodup : (p.functions.map ASTFunction.name).Nodup) :
    ((p.dispatching .initial).functionIndex "main").isNone ↔
      "main" ∉ p.functions.map ASTFunction.name := by
  have htables : (p.tables .initial).TablesOf p := CodegenState.tablesOf_addFunctions hnodup rfl
  rw [dispatching_functionIndex]
  constructor
  · rintro hnone hmem
    obtain ⟨f, hf, hname⟩ := List.mem_map.1 hmem
    obtain ⟨k, hk⟩ := List.getElem?_of_mem hf
    rw [← hname, htables.functionIndex k f hk] at hnone
    cases hnone
  · intro hmem
    rw [htables.functionIndex_eq_none _ hmem]
    rfl

theorem instructions_declarations (fs : List ASTFunction) (table : List FunctionRef) (k : ℕ) :
    (Llvm.Module.mk (declarations fs) table k).instructions = [] := by
  unfold Module.instructions
  induction fs using List.reverseRecOn with
  | nil => rfl
  | append_singleton fs f ih =>
    rw [declarations_append]
    unfold addDeclaration
    split_ifs
    · exact ih
    · rw [List.flatMap_append, ih]
      rfl

theorem Llvm.CodegenState.of_mem_insert {s : CodegenState} {i j : Instruction}
    (h : j ∈ (s.insert i).module.instructions) : j ∈ s.module.instructions ∨ j = i :=
  Module.mem_instructions_modifyBlock
    (fun _ _ hx ↦ (List.mem_append.1 hx).imp_right fun hx ↦ by rw [List.mem_singleton.1 hx]) h

/-- Before the functions are generated, the only call is that of a program without `main`. -/
theorem ASTProgram.call_mem_declared (fields : List String) {r : FunctionRef} {args : List Operand}
    (hnodup : (p.functions.map ASTFunction.name).Nodup)
    (h : .call (.function r) args ∈ (p.declared fields .initial).module.instructions) :
    p.undefinedRef .initial r := by
  rw [(p.declared_module fields .initial).1] at h
  unfold CodegenState.withCalloc at h
  rw [Module.instructions_create] at h
  change _ ∈ (p.dispatching .initial).withMain.module.instructions at h
  have hdispatching : (p.dispatching .initial).module.instructions = [] := instructions_declarations _ _ _
  unfold CodegenState.withMain at h
  split_ifs at h with hmain
  · refine ⟨(isNone_functionIndex_main hnodup).1 hmain, ?_⟩
    have hentry : (p.dispatching .initial).undefinedEntry.module.instructions = [] := by
      unfold CodegenState.undefinedEntry
      rw [Module.instructions_create, Module.instructions_addBlock, Module.instructions_create]
      exact hdispatching
    rcases CodegenState.of_mem_insert h with h | h
    · rcases CodegenState.of_mem_insert h with h | h
      · rw [hentry] at h
        cases h
      · cases h
        rfl
    · cases h
  · rw [hdispatching] at h
    cases h

/-- The function that is called there has its name unless a function of the program has it. -/
theorem ASTProgram.named_undefinedRef (fields : List String)
    (hnodup : (p.functions.map ASTFunction.name).Nodup) {r : FunctionRef}
    (h : p.undefinedRef .initial r) :
    ∃ name, (p.declared fields .initial).module.names[r.index]? = some name ∧
      (name = "_tip_main_undefined" ↔
        "_tip_main_undefined" ∉ p.functions.map ASTFunction.name) := by
  obtain ⟨hmain, rfl⟩ := h
  set s := p.dispatching .initial with hs
  set m := (s.module.create "_tip_main" [] .int).addBlock s.module.functions.length with hm
  obtain ⟨name, hname, hsymbol⟩ := m.named_create "_tip_main_undefined" [] .void
  have hlength : m.functions.length = s.undefinedRef.index := by
    simp [hm, Module.addBlock, Module.create, CodegenState.undefinedRef]
  have hwith : s.withMain.module.names = (m.create "_tip_main_undefined" [] .void).names := by
    unfold CodegenState.withMain
    rw [if_pos ((isNone_functionIndex_main hnodup).2 hmain), CodegenState.names_undefinedMain]
  refine ⟨name, ?_, hsymbol.trans (not_congr ?_)⟩
  · rw [(p.declared_module fields .initial).1]
    unfold CodegenState.withCalloc
    rw [Module.names_create]
    change (s.withMain.module.names ++ _)[s.undefinedRef.index]? = _
    rw [hwith, ← hlength, List.getElem?_append_left (List.getElem?_eq_some_iff.1 hname).1]
    exact hname
  · rw [hm, Module.names_addBlock]
    exact (symbol_mem_create (x := .undefinedMain) (by decide)).trans (symbol_mem_declarations .undefinedMain)

/-- The call is there. -/
theorem ASTProgram.undefinedMain_mem_declared (fields : List String)
    (hnodup : (p.functions.map ASTFunction.name).Nodup)
    (hmain : "main" ∉ p.functions.map ASTFunction.name) :
    .call (.function (p.dispatching .initial).undefinedRef) [] ∈
      (p.declared fields .initial).module.instructions := by
  rw [(p.declared_module fields .initial).1]
  unfold CodegenState.withCalloc
  rw [Module.instructions_create]
  change _ ∈ (p.dispatching .initial).withMain.module.instructions
  unfold CodegenState.withMain
  rw [if_pos ((isNone_functionIndex_main hnodup).2 hmain)]
  set s := p.dispatching .initial with hs
  refine (Module.instructions_subset_modifyBlock fun b ↦ ?_)
    (CodegenState.mem_insert (s := s.undefinedEntry) ?_ _)
  · simp
  · have hblock := Module.blockCount_addBlock (m := s.module.create "_tip_main" [] .int)
      (k := s.module.functions.length) (by simp [Module.create])
    change 0 < Option.getD (Option.map _ ((_ ++ [_])[s.module.functions.length]?)) 0
    rw [List.getElem?_append_left (by simp [Module.addBlock, Module.create]), hblock]
    exact Nat.succ_pos _

theorem ASTProgram.linked_declared (fields : List String) (total fresh : Prop)
    (hnodup : (p.functions.map ASTFunction.name).Nodup) :
    Linked (p.codeUses fields (p.undefinedRef .initial) total fresh) (p.declared fields .initial) := by
  have hframe := p.declared_frame fields .initial
  have hnop : (p.declared fields .initial).nop = some ⟨1, 0, .void⟩ := by rw [hframe]; rfl
  have hserial : (p.declared fields .initial).serial = 1 := by rw [hframe]; rfl
  have hnone : (p.declared fields .initial).intrinsics = fun _ ↦ none := by rw [hframe]; rfl
  obtain ⟨c, -, hcalloc, hmodule, hreturns, -⟩ := p.named_calloc fields .initial
  exact {
    own := by
      rintro r (hr | hr | ⟨i, hr⟩)
      · rw [hnop] at hr
        cases hr
        exact hserial.symm
      · rw [hcalloc] at hr
        cases hr
        exact hmodule.trans hserial.symm
      · rw [hnone] at hr
        cases hr
    direct := fun r args hcall ↦ by
      obtain ⟨hmain, rfl⟩ := call_mem_declared fields hnodup hcall
      refine ⟨(p.dispatching_serial .initial).trans hserial.symm,
        Or.inr ⟨.undefinedMain, Or.inl ⟨rfl, hmain⟩, rfl, ?_⟩⟩
      rw [hnop]
      exact fun h ↦ nomatch congrArg FunctionRef.index (Option.some.inj h)
    named := by
      rw [hnone]
      exact fun _ _ h ↦ nomatch h
    free := fun i _ ↦ symbol_mem_declared fields .initial i
    nopReturns := fun r hr ↦ by
      rw [hnop] at hr
      cases hr
      rfl
    callocReturns := fun r hr ↦ by
      rw [hcalloc] at hr
      cases hr
      exact hreturns
    intrinsicReturns := by
      rw [hnone]
      exact fun _ _ h ↦ nomatch h
    distinct := by
      rw [hnone]
      exact fun _ _ _ h ↦ nomatch h
    undefined := fun r args hcall _ _ ↦ call_mem_declared fields hnodup hcall }

/-- What a function of the runtime returns. -/
def Llvm.RuntimeFunction.returns : RuntimeFunction → Kind
  | .calloc => .pointer
  | .undefinedMain => .void
  | .intrinsic _ => .int

/-- The same pointer is not of two functions of the runtime. -/
theorem Llvm.Linked.refers_unique {U : CodeUses} {s : CodegenState} (h : Linked U s)
    {x y : RuntimeFunction} {r : FunctionRef} (hx : s.Refers x r) (hy : s.Refers y r) : x = y := by
  have hkind : ∀ z : RuntimeFunction, s.Refers z r → r.returns = z.returns := by
    intro z hz
    cases z with
    | calloc => exact h.callocReturns r hz
    | undefinedMain => exact hz.1
    | intrinsic i => exact h.intrinsicReturns i r hz
  have hxy := (hkind x hx).symm.trans (hkind y hy)
  cases x <;> cases y
  case intrinsic.intrinsic i j =>
    exact congrArg RuntimeFunction.intrinsic (h.distinct i j r hx hy)
  all_goals first | rfl | cases hxy

/-! ### The code is generated to the end -/

theorem Llvm.Grows.argsOf {U : CodeUses} {s t : CodegenState} (h : Grows U s t) {name : String}
    (hname : (s.module.argsOf name).isSome) : t.module.argsOf name = s.module.argsOf name := by
  obtain ⟨new, hnew⟩ := h.signatures
  rw [Module.argsOf_eq_signatures] at hname ⊢
  rw [Option.isSome_map] at hname
  rw [Module.argsOf_eq_signatures, ← hnew, List.find?_append, Option.or_of_isSome hname]

theorem isSome_llvmArgs {f : ASTFunction} (hf : f ∈ p.functions) :
    (llvmArgs p.functions (llvmName f.name)).isSome := by
  unfold llvmArgs
  split_ifs
  · rfl
  · rw [Option.isSome_map, List.find?_isSome]
    exact ⟨f, hf, decide_eq_true rfl⟩

/-- After the declarations of a function, its parameters and locals are bound, and the functions are
known. -/
theorem SymbolTable.Describes.knows_prologue {st : SymbolTable} (h : st.Describes p)
    {fields : List String} {U : CodeUses} {f : ASTFunction} (hf : f ∈ p.functions)
    (hdecls : ∀ stmt ∈ f.declarations, stmt.vars ≠ []) {t u : CodegenState}
    (ht : Grows U (p.declared fields .initial) t) (hu : Run.Returns f.generatePrologue t () u)
    (x : String) :
    ((u.namedValues x).isSome ↔ x ∈ p.parameters f ++
      (f.declarations.flatMap ASTDeclStmt.vars).map ASTDeclNode.name) ∧
    ((u.functionIndex x).isSome ↔ x ∈ p.functions.map ASTFunction.name) := by
  obtain ⟨s, hs, htables, hargs⟩ := p.declareFunctions_returns h.names_nodup fields
  obtain ⟨-, rfl⟩ := (p.returns_declareFunctions h.names_nodup fields .initial).unique hs
  have htables' : t.TablesOf p := by
    refine ⟨?_, ?_, ?_⟩
    · rw [ht.functionIndex]
      exact htables.functionIndex
    · rw [ht.functionIndex]
      exact htables.functionIndex_eq_none
    · rw [ht.formalNames]
      exact htables.formalNames
  have hargs' : t.module.argsOf (llvmName f.name) = llvmArgs p.functions (llvmName f.name) := by
    rw [ht.argsOf (by rw [hargs f hf]; exact isSome_llvmArgs hf), hargs f hf]
  obtain ⟨u', hu', hindex, hnamed⟩ := ASTFunction.generatePrologue_returns hf hdecls htables' hargs'
  obtain ⟨-, rfl⟩ := hu.unique hu'
  constructor
  · have hsome : (u'.namedValues x).isSome = ((u'.namedValues x).map Alloca.origin).isSome :=
      Option.isSome_map.symm
    rw [hsome, hnamed, ← f.map_fst_bindings, ← List.mem_reverse, ← List.map_reverse,
      ← Option.not_isNone, Bool.not_eq_true', ← Bool.not_eq_true, lookup_isNone_iff, not_not]
  · rw [hindex]
    constructor
    · intro hsome
      by_contra hmem
      rw [htables'.functionIndex_eq_none x hmem] at hsome
      cases hsome
    · intro hmem
      obtain ⟨g, hg, rfl⟩ := List.mem_map.1 hmem
      obtain ⟨k, hk⟩ := List.getElem?_of_mem hg
      rw [htables'.functionIndex k g hk]
      rfl

/-- After the declarations of a function, every variable that it uses is bound, or a function. -/
theorem SymbolTable.Describes.bound {st : SymbolTable} (h : st.Describes p) {fields : List String}
    {U : CodeUses} {f : ASTFunction} (hf : f ∈ p.functions)
    (hdecls : ∀ stmt ∈ f.declarations, stmt.vars ≠ []) {t u : CodegenState}
    (ht : Grows U (p.declared fields .initial) t) (hu : Run.Returns f.generatePrologue t () u)
    {x : String} (hx : f.Uses x) (hown : ¬ (p.Borrows f ∧ x ∈ f.formals.map ASTDeclNode.name)) :
    (u.namedValues x).isSome ∨ (u.functionIndex x).isSome := by
  obtain ⟨hnamed, hindex⟩ := h.knows_prologue hf hdecls ht hu x
  obtain ⟨n, hn⟩ := hx
  rcases h.known f hf n x hn with hfunction | hlocal
  · obtain ⟨d, hd⟩ := Option.isSome_iff_exists.1 hfunction
    obtain ⟨g, hg, rfl, -⟩ := h.of_getFunction x d hd
    exact Or.inr (hindex.2 (List.mem_map_of_mem hg))
  · refine Or.inl (hnamed.2 (List.mem_append.2 ?_))
    unfold ASTFunction.localDecls at hlocal
    rw [List.map_append, List.mem_append] at hlocal
    refine hlocal.imp_left fun hformal ↦ ?_
    have hborrows : ¬ p.Borrows f := fun hborrows ↦ hown ⟨hborrows, hformal⟩
    rwa [ASTProgram.parameters_of_not_borrows hf h.names_nodup hborrows]

/-! ### The functions of a program -/

theorem ASTProgram.alike_initial (p : ASTProgram) (calls : RuntimeFunction → Prop) :
    p.Alike ⟨0, 0⟩ calls .initial .initial where
  nextId := rfl
  serial := rfl
  lValueGen := rfl
  allocFlag := rfl
  allocFlag' := rfl
  intrinsics _ _ := rfl
  functionIndex _ _ := id
  fieldIndex _ _ := id
  main := Or.inr rfl
  numTIPArgs := Or.inr rfl

theorem ASTProgram.reaches_iff {fields : List String} {i : ℕ} {s : CodegenState}
    (hnodup : (p.functions.map ASTFunction.name).Nodup) :
    p.Reaches fields i s ↔ Run.Returns ((p.functions.take i).forM ASTFunction.generate)
      (p.declared fields .initial) () s :=
  (p.returns_declareFunctions hnodup fields .initial).bind_iff

/-- What code the functions generate, and what they call. If no function with the LLVM function of
another uses one of its formals, they come to the end. -/
theorem SymbolTable.Describes.relates {st : SymbolTable} (h : st.Describes p) (total : Prop)
    (hdecls : ∀ f ∈ p.functions, ∀ stmt ∈ f.declarations, stmt.vars ≠ [])
    (htotal : total → ∀ f ∈ p.functions, ∀ x, f.Uses x →
      ¬ (p.Borrows f ∧ x ∈ f.formals.map ASTDeclNode.name)) (i : ℕ) :
    Run.Relates total ((p.functions.take i).forM ASTFunction.generate)
      ((p.functions.take i).forM ASTFunction.generate) (p.declared st.getFields .initial)
      (p.declared st.getFields .initial) fun _ s _ _ ↦
        Linked (p.codeUses st.getFields (p.undefinedRef .initial) total True) s ∧
          Grows (p.codeUses st.getFields (p.undefinedRef .initial) total True)
            (p.declared st.getFields .initial) s ∧
          ∀ f ∈ p.functions.take i, ∀ x, CallsIn f.codeEvents x → s.CallsRuntime x := by
  refine (ASTProgram.relates_declared (p.alike_initial _) h.names_nodup h.knowsFields
    (fun _ ↦ ASTProgram.linked_declared st.getFields total True h.names_nodup) (fun _ ↦ hdecls)
    (fun ht f hf t hgrows u hu x hx ↦ h.bound hf (hdecls f hf) hgrows hu hx (htotal ht f hf x hx))
    (List.take_subset i _)).mono ?_
  rintro _ t _ t' ⟨hbetween, hgrows, hcalls⟩
  exact ⟨hbetween.linked trivial, hgrows, hcalls⟩

/-- Two functions have one LLVM function only if they are `main` and `_tip_main`. -/
theorem llvmName_injOn {fs : List ASTFunction} (h : ¬ ("main" ∈ fs.map ASTFunction.name ∧
    "_tip_main" ∈ fs.map ASTFunction.name)) {f g : ASTFunction} (hf : f ∈ fs) (hg : g ∈ fs)
    (hfg : llvmName f.name = llvmName g.name) : f.name = g.name := by
  have hmem : ∀ {k}, k ∈ fs → k.name ∈ fs.map ASTFunction.name := fun hk ↦ List.mem_map_of_mem hk
  unfold llvmName at hfg
  split_ifs at hfg with hfmain hgmain hgmain
  · exact hfmain.trans hgmain.symm
  · exact absurd ⟨hfmain ▸ hmem hf, hfg ▸ hmem hg⟩ h
  · exact absurd ⟨hgmain ▸ hmem hg, hfg.symm ▸ hmem hf⟩ h
  · exact hfg

theorem Llvm.Module.names_of_find {m : Module} {name : String} {k : ℕ} (h : m.find name = some k) :
    m.names[k]? = some name := by
  obtain ⟨hk, hname, -⟩ := List.findIdx?_eq_some_iff_getElem.1 h
  unfold names
  rw [List.getElem?_map, List.getElem?_eq_getElem hk]
  exact congrArg some (of_decide_eq_true hname)

theorem Llvm.Grows.names {U : CodeUses} {s t : CodegenState} (h : Grows U s t) :
    s.module.names <+: t.module.names := by
  rw [Module.names_eq, Module.names_eq]
  exact h.signatures.map Prod.fst

theorem Llvm.Grows.getElem?_names {U : CodeUses} {s t : CodegenState} (h : Grows U s t) {k : ℕ}
    {name : String} (hname : s.module.names[k]? = some name) : t.module.names[k]? = some name := by
  obtain ⟨new, hnew⟩ := h.names
  rw [← hnew, List.getElem?_append_left (List.getElem?_eq_some_iff.1 hname).1]
  exact hname

theorem ASTProgram.dispatchTable_declared (p : ASTProgram) (fields : List String) (s : CodegenState) :
    (p.declared fields s).module.dispatchTable =
      p.functions.map fun f ↦ ⟨s.serial + 1, place (declarations p.functions) f.name, .int⟩ := by
  rw [(p.declared_module fields s).1]
  change (p.dispatching s).withMain.module.dispatchTable = _
  unfold CodegenState.withMain
  split_ifs <;> rfl

section Reached

variable {st : SymbolTable} (h : st.Describes p)
  (hdecls : ∀ f ∈ p.functions, ∀ stmt ∈ f.declarations, stmt.vars ≠ [])

include h hdecls

/-- In whatever state a function is looked up, it has the place where it was declared. -/
theorem SymbolTable.Describes.returns_getFunction {i : ℕ} {s : CodegenState}
    (hs : p.Reaches st.getFields i s) {f : ASTFunction} (hf : f ∈ p.functions) :
    s.module.find (llvmName f.name) = some (place (declarations p.functions) f.name) ∧
      Run.Returns (Sipc.getFunction f.name) s
        ⟨1, place (declarations p.functions) f.name, .int⟩ s := by
  obtain ⟨-, -, -, -, hgrows, -⟩ :=
    (h.relates False hdecls False.elim i).relates ((p.reaches_iff h.names_nodup).1 hs)
  have hfind := hgrows.find (ASTProgram.find_declared hf st.getFields .initial)
  have hserial : s.serial = 1 := by
    rw [hgrows.serial, p.declared_frame st.getFields .initial]
    rfl
  refine ⟨hfind, ?_⟩
  rw [← hserial]
  exact getFunction_of_find hfind

theorem SymbolTable.Describes.dispatchTable_eq {i : ℕ} {s : CodegenState}
    (hs : p.Reaches st.getFields i s) : s.module.dispatchTable =
      p.functions.map fun f ↦ ⟨1, place (declarations p.functions) f.name, .int⟩ := by
  obtain ⟨-, -, -, -, hgrows, -⟩ :=
    (h.relates False hdecls False.elim i).relates ((p.reaches_iff h.names_nodup).1 hs)
  rw [hgrows.dispatchTable, p.dispatchTable_declared]
  rfl

/-- What is called of the runtime has its name unless a function of the program has it. -/
theorem SymbolTable.Describes.named_runtime {s : CodegenState}
    (hs : p.Reaches st.getFields p.functions.length s) {r : FunctionRef} {args : List Operand}
    (hcall : .call (.function r) args ∈ s.module.instructions) :
    r.module = s.serial ∧ (s.nop = some r ∨ ∃ x, s.Refers x r) ∧ ∀ x, s.Refers x r →
      p.CallsRuntime x ∧ ∃ name, s.module.names[r.index]? = some name ∧
        (name = x.symbol ↔ x.symbol ∉ p.functions.map ASTFunction.name) := by
  obtain ⟨-, -, -, hlinked, hgrows, -⟩ := (h.relates False hdecls False.elim _).relates
    ((p.reaches_iff h.names_nodup).1 hs)
  obtain ⟨hmodule, hr⟩ := hlinked.direct r args hcall
  refine ⟨hmodule, hr.imp_right fun ⟨x, _, hx⟩ ↦ ⟨x, hx⟩, fun x hx ↦ ⟨?_, ?_⟩⟩
  · rcases hr with hnop | ⟨y, hy, hyr⟩
    · -- What returns nothing, and is called, is the nop or undefined.
      cases x with
      | calloc => cases (hlinked.nopReturns r hnop).symm.trans (hlinked.callocReturns r hx)
      | undefinedMain => exact absurd hnop hx.2
      | intrinsic i => cases (hlinked.nopReturns r hnop).symm.trans (hlinked.intrinsicReturns i r hx)
    · rw [hlinked.refers_unique hx hyr]
      exact hy
  · cases x with
    | calloc =>
      obtain ⟨c, name, hc, -, -, hname, hsymbol⟩ := p.named_calloc st.getFields .initial
      obtain rfl : c = r := Option.some.inj (hc.symm.trans (hgrows.calloc.symm.trans hx))
      exact ⟨name, hgrows.getElem?_names hname, hsymbol⟩
    | undefinedMain =>
      obtain ⟨name, hname, hsymbol⟩ := p.named_undefinedRef st.getFields h.names_nodup
        (hlinked.undefined r args hcall hx.1 hx.2)
      exact ⟨name, hgrows.getElem?_names hname, hsymbol⟩
    | intrinsic i => exact hlinked.named i r hx

end Reached

theorem Llvm.CodegenState.names_of_mem_dispatchTable {st : SymbolTable} (h : st.Describes p)
    (hdecls : ∀ f ∈ p.functions, ∀ stmt ∈ f.declarations, stmt.vars ≠ []) {i : ℕ} {s : CodegenState}
    (hs : p.Reaches st.getFields i s) {r : FunctionRef} (hr : r ∈ s.module.dispatchTable) :
    ∃ f ∈ p.functions, s.module.names[r.index]? = some (llvmName f.name) := by
  rw [h.dispatchTable_eq hdecls hs] at hr
  obtain ⟨f, hf, rfl⟩ := List.mem_map.1 hr
  exact ⟨f, hf, Module.names_of_find (h.returns_getFunction hdecls hs hf).1⟩

theorem ASTProgram.not_borrows (h : ¬ ("main" ∈ p.functions.map ASTFunction.name ∧
      "_tip_main" ∈ p.functions.map ASTFunction.name))
    (hidents : ∀ f ∈ p.functions, IsIdentifier f.name) {f : ASTFunction} (hf : f ∈ p.functions) :
    ¬ p.Borrows f := by
  rintro (hnop | ⟨hname, g, hg, hmain⟩)
  · have hident := hidents f hf
    rw [hnop] at hident
    exact absurd hident (by decide)
  · exact h ⟨hmain ▸ List.mem_map_of_mem (List.mem_of_find?_eq_some hg),
      hname ▸ List.mem_map_of_mem hf⟩

/-- The functions of a program have LLVM functions of their own, and what is called of the runtime is of
the runtime, exactly if no two of their names clash. -/
theorem ASTProgram.functionNaming_iff {st : SymbolTable} (hb : SymbolTable.build p = .ok st)
    (hidents : ∀ f ∈ p.functions, IsIdentifier f.name)
    (hdecls : ∀ f ∈ p.functions, ∀ stmt ∈ f.declarations, stmt.vars ≠ []) :
    p.FunctionNaming st.getFields ↔ p.NamesApart := by
  have h := SymbolTable.build_spec hb
  constructor
  · intro hnaming
    have hmain : ¬ ("main" ∈ p.functions.map ASTFunction.name ∧
        "_tip_main" ∈ p.functions.map ASTFunction.name) := by
      rintro ⟨hmain, htip⟩
      obtain ⟨f, hf, hfname⟩ := List.mem_map.1 hmain
      obtain ⟨g, hg, hgname⟩ := List.mem_map.1 htip
      have hs : p.Reaches st.getFields 0 (p.declared st.getFields .initial) :=
        (p.reaches_iff h.names_nodup).2 (Run.returns_pure.2 ⟨rfl, rfl⟩)
      have hfun := (h.returns_getFunction hdecls hs hf).2
      have hgun := (h.returns_getFunction hdecls hs hg).2
      have hplace : place (declarations p.functions) g.name =
          place (declarations p.functions) f.name := by
        rw [hfname, hgname]
        rfl
      rw [hplace] at hgun
      have hfg := hnaming.distinct 0 _ hs f hf g hg _ _ _ hfun hgun
      rw [hfg, hgname] at hfname
      exact absurd hfname (by decide)
    refine ⟨hmain, fun x hx ↦ ?_⟩
    -- The code is generated to the end, and the call is in it.
    have hrelates := h.relates True hdecls
      (fun _ f hf x _ hx ↦ ASTProgram.not_borrows hmain hidents hf hx.1) p.functions.length
    obtain ⟨⟨⟩, s, hrun⟩ := hrelates.returns trivial
    have hs := (p.reaches_iff h.names_nodup).2 hrun
    obtain ⟨-, -, -, -, hgrows, hcalls⟩ := hrelates.relates hrun
    have hcalled : s.CallsRuntime x := by
      rcases hx with ⟨rfl, hnone⟩ | ⟨f, hf, hf'⟩
      · have hcall := ASTProgram.undefinedMain_mem_declared st.getFields h.names_nodup hnone
        refine hgrows.callsRuntime ⟨_, [], ⟨rfl, ?_⟩, hcall⟩
        rw [p.declared_frame st.getFields .initial]
        exact fun hnop ↦ nomatch congrArg FunctionRef.index (Option.some.inj hnop)
      · exact hcalls f (by rwa [List.take_length]) x hf'
    obtain ⟨r, args, hr, hcall⟩ := hcalled
    obtain ⟨-, name, hname, hsymbol⟩ := (h.named_runtime hdecls hs hcall).2.2 x hr
    have hx := ((hnaming.runtime s hs r args hcall).2.2 x hr).1
    exact hsymbol.1 (Option.some.inj (hname.symm.trans hx))
  · intro hapart
    refine ⟨fun i s hs f hf g hg F t t' hft hgt ↦ ?_, fun i s f hs hf ↦ ?_, fun j s hs i f hf ↦ ?_,
      fun s hs r args hcall ↦ ?_⟩
    · obtain ⟨hfind, hfun⟩ := h.returns_getFunction hdecls hs hf
      obtain ⟨hfind', hgun⟩ := h.returns_getFunction hdecls hs hg
      have hplace := congrArg FunctionRef.index ((hft.unique hfun).1.trans (hgt.unique hgun).1.symm)
      rw [show place _ f.name = place _ g.name from hplace] at hfind
      have hnames := (Module.names_of_find hfind).symm.trans (Module.names_of_find hfind')
      exact List.inj_on_of_nodup_map h.names_nodup hf hg
        (llvmName_injOn hapart.main hf hg (Option.some.inj hnames))
    · refine ⟨_, ?_, (h.returns_getFunction hdecls hs (List.mem_of_getElem? hf)).2⟩
      rw [h.dispatchTable_eq hdecls hs, List.getElem?_map, hf]
      rfl
    · obtain ⟨-, -, -, -, hgrows, -⟩ := (h.relates False hdecls False.elim j).relates
        ((p.reaches_iff h.names_nodup).1 hs)
      have htables : (p.tables .initial).TablesOf p :=
        CodegenState.tablesOf_addFunctions h.names_nodup rfl
      rw [hgrows.functionIndex, p.declared_frame st.getFields .initial]
      exact htables.functionIndex i f hf
    · obtain ⟨hmodule, hr, hall⟩ := h.named_runtime hdecls hs hcall
      refine ⟨hmodule, hr, fun x hx ↦ ?_⟩
      obtain ⟨hcalls, name, hname, hsymbol⟩ := hall x hx
      have hfree := hapart.runtime x hcalls
      have hname' : s.module.names[r.index]? = some x.symbol := by rw [hname, hsymbol.2 hfree]
      refine ⟨hname', fun htable ↦ ?_⟩
      obtain ⟨f, hf, hllvm⟩ := CodegenState.names_of_mem_dispatchTable h hdecls hs htable
      rw [hname'] at hllvm
      have hfx := (llvmName_eq_symbol_iff x).1 (Option.some.inj hllvm).symm
      exact hfree (hfx ▸ List.mem_map_of_mem hf)

/-- `main() { output 1; return 0; }` -/
def outputProgram : ASTProgram where
  functions :=
    [⟨0, ⟨1, "main"⟩, [], [], [.outputStmt 2 (.numberExpr 3 1)], ⟨4, .numberExpr 5 0⟩, false⟩]
  distinct := by decide

theorem functionNaming_outputProgram : outputProgram.FunctionNaming [] := by
  refine (ASTProgram.functionNaming_iff
    (show SymbolTable.build outputProgram = .ok ⟨_, _, []⟩ from rfl) (by decide)
    (by decide)).2 ⟨by decide, fun x _ ↦ ?_⟩
  rcases x with _ | _ | (_ | _ | _) <;> decide

/-- `main() { return 0; } _tip_main() { return 1; }` -/
def namesakeProgram : ASTProgram where
  functions :=
    [⟨0, ⟨1, "main"⟩, [], [], [], ⟨2, .numberExpr 3 0⟩, false⟩,
      ⟨4, ⟨5, "_tip_main"⟩, [], [], [], ⟨6, .numberExpr 7 1⟩, false⟩]
  distinct := by decide

/-- Both bodies are generated into the LLVM function `_tip_main`. -/
theorem not_functionNaming_namesakeProgram :
    (∃ st, SymbolTable.build namesakeProgram = .ok st ∧ st.getFields = []) ∧
      (∀ f ∈ namesakeProgram.functions, IsIdentifier f.name) ∧
        ¬ namesakeProgram.FunctionNaming [] := by
  refine ⟨⟨_, rfl, rfl⟩, by decide, fun h ↦ ?_⟩
  have hs : namesakeProgram.Reaches [] 0 ((namesakeProgram.declareFunctions []) .initial).state :=
    ⟨rfl, rfl⟩
  have hmain : Run.Returns (getFunction "main") ((namesakeProgram.declareFunctions []) .initial).state
      ⟨1, 1, .int⟩ ((namesakeProgram.declareFunctions []) .initial).state := ⟨rfl, rfl⟩
  have htip : Run.Returns (getFunction "_tip_main")
      ((namesakeProgram.declareFunctions []) .initial).state
      ⟨1, 1, .int⟩ ((namesakeProgram.declareFunctions []) .initial).state := ⟨rfl, rfl⟩
  have hsame := h.distinct 0 _ hs _ List.mem_cons_self _ (List.mem_cons_of_mem _ List.mem_cons_self)
    _ _ _ hmain htip
  exact absurd (congrArg ASTFunction.name hsame) (by decide)

end Names

end Sipc
