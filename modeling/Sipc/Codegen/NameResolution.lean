import Sipc.Codegen.ModuleCodegen
import Sipc.Semantic.SymbolTable

/-!
# Two resolvers of names

A variable is resolved by the symbol table, in the map of its function and then among the functions,
and by the code generator, in `namedValues` and then in `functionIndex`. `ASTProgram.namesResolve_iff`
says when the two agree on every variable of a program that has a symbol table.

They agree but for one case: the LLVM function of `main` is called `_tip_main`, so a function of the
program with that name, declared after `main`, is given the function of `main`, which has no
arguments (`ASTProgram.Borrows`). Its formals are then bound to nothing.
-/

set_option autoImplicit false
set_option relaxedAutoImplicit false

namespace Sipc

open Llvm Library

/-- What the code generator takes a name for. -/
inductive Entity
  | alloca (origin : Origin)
  | function (idx : ℕ)

/-- The lookups of `ASTVariableExpr::codegen`. -/
def Llvm.CodegenState.resolve (s : CodegenState) (name : String) : Option Entity :=
  match s.namedValues name with
  | some a => some (.alloca a.origin)
  | none => (s.functionIndex name).map .function

/-- The declaration that an entity stands for in the function `f`. -/
def Entity.decl (p : ASTProgram) (f : ASTFunction) : Entity → Option NodeId
  | .alloca (.parameter i) => f.formals[i]?.map ASTDeclNode.node
  | .alloca (.local d) => some d
  | .function idx => p.functions[idx]?.map fun g ↦ g.decl.node

/-- The generation of code up to the statements of `f`, whose names are then resolved. -/
def ASTProgram.enterFunction (p : ASTProgram) (fields : List String) (f : ASTFunction) :
    Generate Unit := do
  p.declareFunctions fields
  f.generatePrologue

/-- In the statements of `f`, the code generator resolves the name to the declaration. -/
def ASTProgram.Resolves (p : ASTProgram) (fields : List String) (f : ASTFunction) (x : String)
    (d : NodeId) : Prop :=
  ∃ s e, Run.Returns (p.enterFunction fields f) CodegenState.initial () s ∧
    s.resolve x = some e ∧ e.decl p f = some d

/-- The symbol table reports exactly the errors, and where there is none, every variable is a local or
a function, not both, and the code generator resolves it to the same declaration. -/
def ASTProgram.NamesResolve (p : ASTProgram) : Prop :=
  ((∃ e, SymbolTable.build p = .error e) ↔ p.NameError) ∧
    ∀ st, SymbolTable.build p = .ok st → ∀ f ∈ p.functions, ∀ x, f.Uses x →
      ∃ d, (st.getLocal x f.decl.node = some d ∧ st.getFunction x = none ∨
          st.getLocal x f.decl.node = none ∧ st.getFunction x = some d) ∧
        p.Resolves st.getFields f x d

/-- The name of the LLVM function of a function. -/
def llvmName (name : String) : String :=
  if name = "main" then "_tip_main" else name

/-- `getFunction` gives `f` the LLVM function of another: that of a `main` declared before, or the
intrinsic that is in every module. -/
def ASTProgram.Borrows (p : ASTProgram) (f : ASTFunction) : Prop :=
  f.name = "llvm.donothing" ∨ (f.name = "_tip_main" ∧
    ∃ g, p.functions.find? (fun g ↦ llvmName g.name = "_tip_main") = some g ∧ g.name = "main")

/-! ### The declared functions -/

/-- The arguments of the function with that name. -/
def Llvm.Module.argsOf (m : Module) (name : String) : Option (List String) :=
  (m.functions.find? fun f ↦ f.name = name).map Llvm.Function.args

/-- The arguments of the LLVM function that the declared functions leave under a name. -/
def llvmArgs (fs : List ASTFunction) (name : String) : Option (List String) :=
  if name = "llvm.donothing" then some []
  else (fs.find? fun g ↦ llvmName g.name = name).map fun g ↦
    if g.name = "main" then [] else g.formals.map ASTDeclNode.name

theorem Llvm.Module.argsOf_create {m : Module} {name : String} (args : List String) (k : Kind)
    (h : m.argsOf name = none) (n : String) :
    (m.create name args k).argsOf n = (m.argsOf n).or (if name = n then some args else none) := by
  have hfresh : m.freshName name = name := by
    unfold argsOf at h
    rw [Option.map_eq_none_iff, List.find?_eq_none] at h
    refine if_neg fun hmem ↦ ?_
    obtain ⟨f, hf, hname⟩ := List.mem_map.1 hmem
    exact h f hf (decide_eq_true hname)
  unfold create argsOf
  rw [hfresh, List.find?_append, Option.map_or]
  congr 1
  by_cases hn : name = n <;> simp [hn]

/-- A function that is there keeps its name: a new one is added behind it. -/
theorem Llvm.Module.argsOf_create_of_isSome {m : Module} (name : String) (args : List String)
    (k : Kind) {n : String} (h : (m.argsOf n).isSome) : (m.create name args k).argsOf n = m.argsOf n := by
  unfold create argsOf at *
  rw [List.find?_append, Option.map_or]
  exact Option.or_of_isSome h

theorem Llvm.Module.find_eq_some_iff_argsOf {m : Module} {name : String} :
    (m.find name).isSome ↔ (m.argsOf name).isSome := by
  unfold find argsOf
  rw [Option.isSome_map, List.findIdx?_isSome, List.find?_isSome]
  simp

theorem Llvm.Module.args_of_find {m : Module} {name : String} {i : ℕ} (h : m.find name = some i) :
    m.functions[i]?.map Llvm.Function.args = m.argsOf name := by
  unfold argsOf
  rw [List.find?_eq_bind_findIdx?_getElem?, show m.functions.findIdx? _ = some i from h]
  rfl

/-- `getFunction` finds the function, or adds it with its formals. -/
theorem getFunction_returns (name : String) (s : CodegenState) :
    ∃ F s', Run.Returns (getFunction name) s F s' ∧ s'.functionIndex = s.functionIndex ∧
      s'.functionFormalNames = s.functionFormalNames ∧
      s'.module.functions[F.index]?.map Llvm.Function.args = s'.module.argsOf (llvmName name) ∧
      ∀ n, s'.module.argsOf n = (s.module.argsOf n).or (if llvmName name = n then
        some (if name = "main" then [] else s.functionFormalNames name) else none) := by
  have hfound : ∀ {n i}, s.module.find n = some i → ∀ (args : List String) (n' : String),
      s.module.argsOf n' = (s.module.argsOf n').or (if n = n' then some args else none) := by
    intro n i hi args n'
    by_cases hn : n = n'
    · subst hn
      have hsome := Module.find_eq_some_iff_argsOf.1 (by rw [hi]; rfl : (s.module.find n).isSome)
      rw [Option.or_of_isSome hsome]
    · rw [if_neg hn, Option.or_none]
  have hnew : ∀ {n}, s.module.find n = none → s.module.argsOf n = none := by
    intro n hn
    rw [← Option.not_isSome_iff_eq_none, ← Module.find_eq_some_iff_argsOf, hn]
    simp
  have hlast : ∀ (n : String) (args : List String), s.module.argsOf n = none →
      (s.module.create n args .int).functions[s.module.functions.length]?.map Llvm.Function.args =
        (s.module.create n args .int).argsOf n := by
    intro n args hn
    rw [Module.argsOf_create args .int hn, hn, if_pos rfl]
    simp [Module.create]
  by_cases hmain : name = "main"
  · subst hmain
    cases hfind : s.module.find "_tip_main" with
    | some i =>
      refine ⟨⟨s.serial, i, .int⟩, s, ?_, rfl, rfl, Module.args_of_find hfind, hfound hfind _⟩
      unfold getFunction
      rw [Run.returns_bind]
      exact ⟨s, s, Run.returns_access.2 rfl, by simp [hfind]⟩
    | none =>
      set s₁ := { s with numTIPArgs := (s.functionFormalNames "main").length } with hs₁
      refine ⟨⟨s.serial, s.module.functions.length, .int⟩, s₁.create "_tip_main" [] .int, ?_, rfl,
        rfl, hlast _ _ (hnew hfind), Module.argsOf_create _ _ (hnew hfind)⟩
      unfold getFunction
      rw [Run.returns_bind]
      refine ⟨s, s, Run.returns_access.2 rfl, ?_⟩
      rw [if_pos rfl, hfind]
      exact Run.returns_bind.2 ⟨(), s₁, Run.returns_access.2 rfl, Run.returns_access.2 rfl⟩
  · have hname : llvmName name = name := if_neg hmain
    rw [hname]
    cases hfind : s.module.find name with
    | some i =>
      refine ⟨⟨s.serial, i, .int⟩, s, ?_, rfl, rfl, Module.args_of_find hfind, hfound hfind _⟩
      unfold getFunction
      rw [Run.returns_bind]
      exact ⟨s, s, Run.returns_access.2 rfl, by simp [hfind, hmain]⟩
    | none =>
      refine ⟨⟨s.serial, s.module.functions.length, .int⟩,
        s.create name (s.functionFormalNames name) .int, ?_, rfl, rfl,
        hlast _ _ (hnew hfind), ?_⟩
      · unfold getFunction
        rw [Run.returns_bind]
        refine ⟨s, s, Run.returns_access.2 rfl, ?_⟩
        rw [if_neg hmain, hfind]
        exact Run.returns_access.2 rfl
      · rw [if_neg hmain]
        exact Module.argsOf_create _ _ (hnew hfind)

/-! ### The symbol tables of a program -/

/-- The names and arguments of the functions. -/
def Llvm.Module.signatures (m : Module) : List (String × List String) :=
  m.functions.map fun f ↦ (f.name, f.args)

theorem Llvm.Module.argsOf_eq_signatures (m : Module) (n : String) :
    m.argsOf n = (m.signatures.find? fun p ↦ p.1 = n).map Prod.snd := by
  unfold argsOf signatures
  rw [List.find?_map, Option.map_map]
  rfl

theorem Llvm.Module.argsOf_congr {m m' : Module} (h : m'.signatures = m.signatures) :
    m'.argsOf = m.argsOf := by
  funext n
  rw [argsOf_eq_signatures, argsOf_eq_signatures, h]

theorem map_modify_of_eq {α β : Type} {f : α → α} {g : α → β} (h : ∀ a, g (f a) = g a) (l : List α)
    (i : ℕ) : (l.modify i f).map g = l.map g := by
  refine List.ext_getElem? fun j ↦ ?_
  rw [List.getElem?_map, List.getElem?_modify, List.getElem?_map, Option.map_eq_map,
    Option.map_map]
  congr 1
  funext a
  by_cases hij : i = j <;> simp [hij, h]

theorem Llvm.Module.signatures_addBlock (m : Module) (f : ℕ) :
    (m.addBlock f).signatures = m.signatures := by
  unfold addBlock signatures
  refine map_modify_of_eq (fun _ ↦ ?_) _ _
  rfl

theorem Llvm.Module.signatures_modifyBlock (m : Module) (f : ℕ) (l : IR.Label)
    (change : Block → Block) : (m.modifyBlock f l change).signatures = m.signatures := by
  unfold modifyBlock signatures
  refine map_modify_of_eq (fun _ ↦ ?_) _ _
  rfl

/-- What the functions that were declared leave in the module. -/
theorem llvmArgs_append (fs : List ASTFunction) (f : ASTFunction) (n : String) :
    llvmArgs (fs ++ [f]) n = (llvmArgs fs n).or (if llvmName f.name = n then
      some (if f.name = "main" then [] else f.formals.map ASTDeclNode.name) else none) := by
  unfold llvmArgs
  by_cases hn : n = "llvm.donothing"
  · rw [if_pos hn, if_pos hn]
    rfl
  · rw [if_neg hn, if_neg hn, List.find?_append, Option.map_or]
    congr 1
    by_cases hf : llvmName f.name = n <;> simp [hf]

/-- A numbered list of functions with distinct names enters its numbers and its formals. -/
theorem foldl_addFunctions {l : List (ASTFunction × ℕ)}
    (hnodup : (l.map fun a ↦ a.1.name).Nodup) :
    ∀ s : CodegenState,
      let s' := l.foldl (fun s (f, funIndex) ↦
        { s with
          functionIndex := Function.update s.functionIndex f.name (some funIndex)
          functionFormalNames :=
            Function.update s.functionFormalNames f.name (f.formals.map ASTDeclNode.name) }) s
      (∀ a ∈ l, s'.functionIndex a.1.name = some a.2 ∧
        s'.functionFormalNames a.1.name = a.1.formals.map ASTDeclNode.name) ∧
      ∀ x, x ∉ l.map (fun a ↦ a.1.name) → s'.functionIndex x = s.functionIndex x ∧
        s'.functionFormalNames x = s.functionFormalNames x := by
  induction l with
  | nil => exact fun s ↦ ⟨fun _ h ↦ (nomatch h), fun _ _ ↦ ⟨rfl, rfl⟩⟩
  | cons a l ih =>
    intro s
    obtain ⟨ha, hl⟩ := List.nodup_cons.1 hnodup
    obtain ⟨hin, hout⟩ := ih hl
      { s with
        functionIndex := Function.update s.functionIndex a.1.name (some a.2)
        functionFormalNames :=
          Function.update s.functionFormalNames a.1.name (a.1.formals.map ASTDeclNode.name) }
    refine ⟨fun b hb ↦ ?_, fun x hx ↦ ?_⟩
    · rcases List.mem_cons.1 hb with rfl | hb
      · have hhead := hout b.1.name ha
        simp only [Function.update_self] at hhead
        exact hhead
      · exact hin b hb
    · rw [List.map_cons, List.mem_cons, not_or] at hx
      have hrest := hout x hx.2
      simp only [Function.update_of_ne hx.1] at hrest
      exact hrest

/-- The tables that a program with distinct function names is compiled with. -/
structure Llvm.CodegenState.TablesOf (p : ASTProgram) (s : CodegenState) : Prop where
  functionIndex : ∀ k g, p.functions[k]? = some g → s.functionIndex g.name = some k
  functionIndex_eq_none : ∀ x, x ∉ p.functions.map ASTFunction.name → s.functionIndex x = none
  formalNames : ∀ f ∈ p.functions, s.functionFormalNames f.name = f.formals.map ASTDeclNode.name

/-- The functions of a program enter their numbers and their formals, whatever the tables hold. -/
theorem Llvm.CodegenState.addFunctions_spec {p : ASTProgram}
    (hnodup : (p.functions.map ASTFunction.name).Nodup) (s : CodegenState) :
    (∀ k g, p.functions[k]? = some g → (s.addFunctions p.functions).functionIndex g.name = some k ∧
      (s.addFunctions p.functions).functionFormalNames g.name = g.formals.map ASTDeclNode.name) ∧
    ∀ x, x ∉ p.functions.map ASTFunction.name →
      (s.addFunctions p.functions).functionIndex x = s.functionIndex x := by
  have hnames : (p.functions.zipIdx.map fun a ↦ a.1.name) = p.functions.map ASTFunction.name := by
    have hfst := congrArg (List.map ASTFunction.name) (List.zipIdx_map_fst 0 p.functions)
    rw [List.map_map] at hfst
    exact hfst
  obtain ⟨hin, hout⟩ := foldl_addFunctions (hnames ▸ hnodup) s
  rw [hnames] at hout
  exact ⟨fun k g hk ↦ hin (g, k) (List.mk_mem_zipIdx_iff_getElem?.2 hk), fun x hx ↦ (hout x hx).1⟩

theorem Llvm.CodegenState.tablesOf_addFunctions {p : ASTProgram}
    (hnodup : (p.functions.map ASTFunction.name).Nodup) {s : CodegenState}
    (hs : s.functionIndex = fun _ ↦ none) : (s.addFunctions p.functions).TablesOf p := by
  obtain ⟨hin, hout⟩ := addFunctions_spec hnodup s
  refine ⟨fun k g hk ↦ (hin k g hk).1, fun x hx ↦ by rw [hout x hx, hs], fun f hf ↦ ?_⟩
  obtain ⟨k, hk⟩ := List.getElem?_of_mem hf
  exact (hin k f hk).2

/-- Filling blocks leaves the functions as they are. -/
theorem Llvm.CodegenState.argsOf_insert (s : CodegenState) (i : Instruction) :
    (s.insert i).module.argsOf = s.module.argsOf :=
  Module.argsOf_congr (Module.signatures_modifyBlock _ _ _ _)

/-- The `_tip_main` of a program without `main` leaves the other functions as they are. -/
theorem ensureMain_returns (s : CodegenState) :
    ∃ s', Run.Returns ensureMain s () s' ∧ s'.functionIndex = s.functionIndex ∧
      s'.functionFormalNames = s.functionFormalNames ∧
      ∀ n, (s.module.argsOf n).isSome → s'.module.argsOf n = s.module.argsOf n := by
  by_cases hmain : (s.functionIndex "main").isNone
  · set s₁ := s.create "_tip_main" [] .int with hs₁
    set s₂ : CodegenState :=
      { s₁ with
        insertFunction := s.module.functions.length
        module := s₁.module.addBlock s.module.functions.length } with hs₂
    set s₃ : CodegenState := { s₂ with
      insertBlock := (s₁.module.functions[s.module.functions.length]?.map
        fun f ↦ f.blocks.length).getD 0 } with hs₃
    set s₄ := s₃.create "_tip_main_undefined" [] .void with hs₄
    set s₅ := s₄.insert
      (.call (.function ⟨s.serial, s₃.module.functions.length, .void⟩) []) with hs₅
    refine ⟨s₅.insert (.ret (.const 0)), ?_, rfl, rfl, fun n hn ↦ ?_⟩
    · unfold ensureMain
      refine Run.returns_bind.2 ⟨s, s, Run.returns_access.2 rfl, ?_⟩
      rw [if_pos hmain]
      unfold generateUndefinedMain
      refine Run.returns_bind.2 ⟨_, s₁, Run.returns_access.2 rfl, Run.returns_bind.2
        ⟨(), _, Run.returns_access.2 rfl, Run.returns_bind.2 ⟨_, s₂, Run.returns_access.2 rfl, ?_⟩⟩⟩
      refine Run.returns_bind.2 ⟨(), s₃, Run.returns_access.2 rfl, Run.returns_bind.2
        ⟨_, s₄, Run.returns_access.2 rfl, Run.returns_bind.2 ⟨(), s₅, Run.returns_access.2 rfl, ?_⟩⟩⟩
      exact Run.returns_access.2 rfl
    · have h₁ : s₁.module.argsOf n = s.module.argsOf n := Module.argsOf_create_of_isSome _ _ _ hn
      have h₃ : s₃.module.argsOf n = s.module.argsOf n := by
        rw [← h₁]
        exact congrFun (Module.argsOf_congr (Module.signatures_addBlock _ _)) n
      have h₄ : s₄.module.argsOf n = s.module.argsOf n := by
        rw [← h₃]
        exact Module.argsOf_create_of_isSome _ _ _ (h₃ ▸ hn)
      rw [CodegenState.argsOf_insert, CodegenState.argsOf_insert, h₄]
  · refine ⟨s, ?_, rfl, rfl, fun _ _ ↦ rfl⟩
    unfold ensureMain
    refine Run.returns_bind.2 ⟨s, s, Run.returns_access.2 rfl, ?_⟩
    rw [if_neg hmain]
    exact Run.returns_pure.2 ⟨rfl, rfl⟩

/-- Before the functions are generated, the tables are filled and every function is declared. -/
theorem ASTProgram.declareFunctions_returns {p : ASTProgram}
    (hnodup : (p.functions.map ASTFunction.name).Nodup) (fields : List String) :
    ∃ s, Run.Returns (p.declareFunctions fields) CodegenState.initial () s ∧ s.TablesOf p ∧
      ∀ f ∈ p.functions,
        s.module.argsOf (llvmName f.name) = llvmArgs p.functions (llvmName f.name) := by
  set s₀ : CodegenState :=
    { CodegenState.initial with
      serial := 1
      module := Module.empty.create "llvm.donothing" [] .void
      nop := some ⟨1, 0, .void⟩ } with hs₀
  set s₁ := s₀.addFunctions p.functions with hs₁
  have htables : s₁.TablesOf p := CodegenState.tablesOf_addFunctions hnodup rfl
  have hmodule : ∀ fs (s : CodegenState), (s.addFunctions fs).module = s.module := by
    intro fs s
    unfold CodegenState.addFunctions
    generalize fs.zipIdx = l
    induction l generalizing s with
    | nil => rfl
    | cons a l ih => rw [List.foldl_cons, ih]
  -- Each function is found or added in its turn.
  obtain ⟨fs, s₂, hdeclare, hindex₂, hformals₂, hargs₂⟩ :=
    Run.exists_returns_mapM (f := fun f ↦ getFunction f.name) (l := p.functions)
      (s := s₁) (fun done _ s ↦ s.functionIndex = s₁.functionIndex ∧
        s.functionFormalNames = s₁.functionFormalNames ∧ ∀ n, s.module.argsOf n = llvmArgs done n)
      (d := []) (r := []) ⟨rfl, rfl, fun n ↦ by
        rw [hs₁, hmodule]
        unfold llvmArgs
        by_cases hn : n = "llvm.donothing"
        · subst hn
          rfl
        · rw [if_neg hn]
          have hne : ¬ "llvm.donothing" = n := fun h ↦ hn h.symm
          simp [hs₀, Module.create, Module.argsOf, Module.freshName, Module.empty, hne]⟩
      (by
        rintro f hf done _ s ⟨hindex, hformals, hargs⟩
        obtain ⟨F, s', hrun, hindex', hformals', -, hargs'⟩ := getFunction_returns f.name s
        refine ⟨F, s', hrun, hindex'.trans hindex, hformals'.trans hformals, fun n ↦ ?_⟩
        rw [hargs', llvmArgs_append, hargs, hformals, htables.formalNames f hf])
  rw [List.nil_append] at hargs₂
  set s₃ : CodegenState := { s₂ with module := { s₂.module with dispatchTable := fs } } with hs₃
  have hargs₃ : ∀ n, s₃.module.argsOf n = llvmArgs p.functions n := hargs₂
  -- The runtime's functions come behind.
  obtain ⟨s₄, hmain, hindex₄, hformals₄, hargs₄⟩ := ensureMain_returns s₃
  set s₅ : CodegenState := { s₄ with module := { s₄.module with numInputs := s₄.numTIPArgs } } with hs₅
  set s₆ : CodegenState :=
    { s₅.create "calloc" [] .pointer with
      calloc := some ⟨s₅.serial, s₅.module.functions.length, .pointer⟩ } with hs₆
  have hfields : ∀ s : CodegenState, (s.addFields fields).functionIndex = s.functionIndex ∧
      (s.addFields fields).functionFormalNames = s.functionFormalNames ∧
      (s.addFields fields).module = s.module := by
    intro s
    unfold CodegenState.addFields
    generalize fields.zipIdx = l
    induction l generalizing s with
    | nil => exact ⟨rfl, rfl, rfl⟩
    | cons a l ih =>
      rw [List.foldl_cons]
      exact ih _
  obtain ⟨hindex₇, hformals₇, hmodule₇⟩ := hfields s₆
  have hindex : (s₆.addFields fields).functionIndex = s₁.functionIndex :=
    hindex₇.trans (hindex₄.trans hindex₂)
  have hformals : (s₆.addFields fields).functionFormalNames = s₁.functionFormalNames :=
    hformals₇.trans (hformals₄.trans hformals₂)
  refine ⟨s₆.addFields fields, ?_, ⟨?_, ?_, ?_⟩, fun f hf ↦ ?_⟩
  · unfold ASTProgram.declareFunctions
    refine Run.returns_bind.2 ⟨(), _, ⟨rfl, rfl⟩, Run.returns_bind.2 ⟨_, _, ⟨rfl, rfl⟩, ?_⟩⟩
    refine Run.returns_bind.2 ⟨(), s₀, ⟨rfl, rfl⟩, Run.returns_bind.2 ⟨(), s₁, ⟨rfl, rfl⟩, ?_⟩⟩
    refine Run.returns_bind.2 ⟨fs, s₂, hdeclare, Run.returns_bind.2 ⟨(), s₃, ⟨rfl, rfl⟩, ?_⟩⟩
    refine Run.returns_bind.2 ⟨(), s₄, hmain, ?_⟩
    refine Run.returns_bind.2 ⟨(), s₅, ⟨rfl, rfl⟩, Run.returns_bind.2 ⟨_, _, ⟨rfl, rfl⟩, ?_⟩⟩
    exact Run.returns_bind.2 ⟨(), s₆, ⟨rfl, rfl⟩, rfl, rfl⟩
  · rw [hindex]
    exact htables.functionIndex
  · rw [hindex]
    exact htables.functionIndex_eq_none
  · rw [hformals]
    exact htables.formalNames
  · have hsome : (llvmArgs p.functions (llvmName f.name)).isSome := by
      unfold llvmArgs
      split_ifs
      · rfl
      · rw [Option.isSome_map, List.find?_isSome]
        exact ⟨f, hf, decide_eq_true rfl⟩
    rw [← hargs₃] at hsome ⊢
    have hsome₄ : (s₅.module.argsOf (llvmName f.name)).isSome := by
      rw [show s₅.module.argsOf _ = s₄.module.argsOf _ from rfl, hargs₄ _ hsome]
      exact hsome
    rw [hmodule₇]
    refine (Module.argsOf_create_of_isSome _ _ _ hsome₄).trans ?_
    exact hargs₄ _ hsome

/-! ### The names of a function -/

/-- The names bound before the statements of `f`, with what they are bound to. -/
def ASTFunction.bindings (f : ASTFunction) (parameters : List String) : List (String × Origin) :=
  parameters.zipIdx.map (fun a ↦ (a.1, .parameter a.2)) ++
    (f.declarations.flatMap ASTDeclStmt.vars).map fun d ↦ (d.name, .local d.node)

/-- The bindings made so far, the last of a name counting. -/
def Llvm.CodegenState.Binds (index : String → Option ℕ) (bs : List (String × Origin))
    (s : CodegenState) : Prop :=
  s.functionIndex = index ∧ ∀ x, (s.namedValues x).map Alloca.origin = bs.reverse.lookup x

theorem Llvm.CodegenState.Binds.bind {index : String → Option ℕ} {bs : List (String × Origin)}
    {s s' : CodegenState} (h : s.Binds index bs) {name : String} {a : Alloca}
    (hindex : s'.functionIndex = s.functionIndex)
    (hnamed : s'.namedValues = Function.update s.namedValues name (some a)) :
    s'.Binds index (bs ++ [(name, a.origin)]) := by
  refine ⟨hindex.trans h.1, fun x ↦ ?_⟩
  rw [hnamed, List.reverse_append, List.reverse_singleton, List.singleton_append, List.lookup_cons]
  by_cases hx : x = name
  · subst hx
    simp
  · have hne : (x == name) = false := by simpa using hx
    rw [Function.update_of_ne hx, hne]
    exact h.2 x

theorem generateLocal_returns (d : ASTDeclNode) (s : CodegenState) :
    ∃ s' a, Run.Returns d.generateLocal s () s' ∧ a.origin = .local d.node ∧
      s'.functionIndex = s.functionIndex ∧
      s'.namedValues = Function.update s.namedValues d.name (some a) := by
  unfold ASTDeclNode.generateLocal
  exact ⟨_, _, Run.returns_bind.2 ⟨_, _, Run.returns_access.2 rfl, Run.returns_bind.2
    ⟨(), _, Run.returns_access.2 rfl, Run.returns_access.2 rfl⟩⟩, rfl, rfl, rfl⟩

theorem generateMainArg_returns (name : String) (i : ℕ) (s : CodegenState) :
    ∃ s' a, Run.Returns (generateMainArg name i) s () s' ∧ a.origin = .parameter i ∧
      s'.functionIndex = s.functionIndex ∧
      s'.namedValues = Function.update s.namedValues name (some a) := by
  unfold generateMainArg
  exact ⟨_, _, Run.returns_bind.2 ⟨_, _, Run.returns_access.2 rfl, Run.returns_bind.2
    ⟨_, _, Run.returns_access.2 rfl, Run.returns_bind.2 ⟨_, _, Run.returns_access.2 rfl,
      Run.returns_bind.2 ⟨(), _, Run.returns_access.2 rfl, Run.returns_access.2 rfl⟩⟩⟩⟩, rfl, rfl,
    rfl⟩

theorem generateArg_returns (name : String) (i : ℕ) (s : CodegenState) :
    ∃ s' a, Run.Returns (generateArg name i) s () s' ∧ a.origin = .parameter i ∧
      s'.functionIndex = s.functionIndex ∧
      s'.namedValues = Function.update s.namedValues name (some a) := by
  unfold generateArg
  exact ⟨_, _, Run.returns_bind.2 ⟨_, _, Run.returns_access.2 rfl, Run.returns_bind.2
    ⟨(), _, Run.returns_access.2 rfl, Run.returns_access.2 rfl⟩⟩, rfl, rfl, rfl⟩

/-- A declaration statement binds its variables. -/
theorem ASTDeclStmt.generate_returns {index : String → Option ℕ} {stmt : ASTDeclStmt}
    (hvars : stmt.vars ≠ []) {bs : List (String × Origin)} {s : CodegenState}
    (h : s.Binds index bs) :
    ∃ s', Run.Returns stmt.generate s () s' ∧
      s'.Binds index (bs ++ stmt.vars.map fun d ↦ (d.name, .local d.node)) := by
  obtain ⟨s', hrun, hbinds⟩ := Run.exists_returns_forM (f := ASTDeclNode.generateLocal)
    (l := stmt.vars) (s := s)
    (fun done s ↦ s.Binds index (bs ++ done.map fun d ↦ (d.name, .local d.node)))
    (d := []) (by rwa [List.map_nil, List.append_nil])
    (by
      intro d _ done s h
      obtain ⟨s', a, hrun, horigin, hindex, hnamed⟩ := generateLocal_returns d s
      refine ⟨s', hrun, ?_⟩
      have hnext := h.bind hindex hnamed
      rw [horigin] at hnext
      rwa [List.map_append, ← List.append_assoc])
  refine ⟨s', ?_, hbinds⟩
  unfold ASTDeclStmt.generate
  refine Run.returns_bind.2 ⟨(), s', hrun, ?_⟩
  rw [if_neg (by simpa using hvars)]
  exact Run.returns_pure.2 ⟨rfl, rfl⟩

theorem ASTDeclStmt.vars_ne_nil_of_returns {stmt : ASTDeclStmt} {s s' : CodegenState}
    (h : Run.Returns stmt.generate s () s') : stmt.vars ≠ [] := by
  intro hvars
  unfold ASTDeclStmt.generate at h
  obtain ⟨⟨⟩, s₁, -, h⟩ := Run.returns_bind.1 h
  rw [if_pos (by simpa using hvars)] at h
  exact Run.not_returns_fail h

/-- The parameters that the code of `f` has. -/
def ASTProgram.parameters (p : ASTProgram) (f : ASTFunction) : List String :=
  if f.name = "main" then f.formals.map ASTDeclNode.name
  else (llvmArgs p.functions (llvmName f.name)).getD []

/-- The first steps of `ASTFunction::codegen` find the parameters. -/
theorem parameterNames_returns {p : ASTProgram} {f : ASTFunction} {s s' : CodegenState}
    {F : FunctionRef}
    (hformals : s.functionFormalNames f.name = f.formals.map ASTDeclNode.name)
    (hargs : s.module.functions[F.index]?.map Llvm.Function.args =
      llvmArgs p.functions (llvmName f.name))
    (hs' : s'.functionFormalNames = s.functionFormalNames)
    (hsig : s'.module.signatures = s.module.signatures) :
    Run.Returns (parameterNames f F) s' (p.parameters f) s' := by
  have hargs' : ∀ m : Module,
      m.functions[F.index]?.map Llvm.Function.args = m.signatures[F.index]?.map Prod.snd := by
    intro m
    unfold Module.signatures
    rw [List.getElem?_map, Option.map_map]
    rfl
  unfold parameterNames ASTProgram.parameters
  refine Run.returns_bind.2 ⟨s', s', Run.returns_access.2 rfl, ?_⟩
  by_cases hmain : f.name = "main"
  · rw [if_pos hmain, if_pos hmain, hs', hformals]
    exact Run.returns_pure.2 ⟨rfl, rfl⟩
  · rw [if_neg hmain, if_neg hmain, hargs', hsig, ← hargs', hargs]
    exact Run.returns_pure.2 ⟨rfl, rfl⟩

/-- Where no declaration statement is empty, the prologue returns, and binds the parameters and the
local variables. -/
theorem ASTFunction.generatePrologue_returns {p : ASTProgram} {f : ASTFunction}
    (hf : f ∈ p.functions) (hdecls : ∀ stmt ∈ f.declarations, stmt.vars ≠ []) {s : CodegenState}
    (hs : s.TablesOf p)
    (hargs : s.module.argsOf (llvmName f.name) = llvmArgs p.functions (llvmName f.name)) :
    ∃ s', Run.Returns f.generatePrologue s () s' ∧
      s'.Binds s.functionIndex (f.bindings (p.parameters f)) := by
  obtain ⟨F, s₁, hrun₁, hindex₁, hformals₁, hF, hargs₁⟩ := getFunction_returns f.name s
  have hsome : (llvmArgs p.functions (llvmName f.name)).isSome := by
    unfold llvmArgs
    split_ifs
    · rfl
    · rw [Option.isSome_map, List.find?_isSome]
      exact ⟨f, hf, decide_eq_true rfl⟩
  rw [hargs₁, hargs, Option.or_of_isSome hsome] at hF
  set s₂ : CodegenState := { s₁ with
    insertFunction := F.index
    module := s₁.module.addBlock F.index } with hs₂
  set s₃ : CodegenState := { s₂ with
    insertBlock := (s₁.module.functions[F.index]?.map fun f ↦ f.blocks.length).getD 0
    namedValues := fun _ ↦ none } with hs₃
  have hnames := parameterNames_returns (hformals₁ ▸ hs.formalNames f hf) hF
    (rfl : s₃.functionFormalNames = _) (Module.signatures_addBlock _ _)
  -- First the parameters are bound.
  obtain ⟨s₄, hrun₄, hbinds₄⟩ := Run.exists_returns_forM
    (f := fun a : String × ℕ ↦
      if f.name = "main" then generateMainArg a.1 a.2 else generateArg a.1 a.2)
    (l := (p.parameters f).zipIdx) (s := s₃)
    (fun done s' ↦ s'.Binds s.functionIndex (done.map fun a ↦ (a.1, .parameter a.2)))
    (d := []) ⟨hindex₁, fun x ↦ rfl⟩
    (by
      intro a _ done s' h
      have hstep : ∃ s'' b, Run.Returns
          (if f.name = "main" then generateMainArg a.1 a.2 else generateArg a.1 a.2) s' () s'' ∧
          b.origin = .parameter a.2 ∧ s''.functionIndex = s'.functionIndex ∧
          s''.namedValues = Function.update s'.namedValues a.1 (some b) := by
        split_ifs
        · exact generateMainArg_returns a.1 a.2 s'
        · exact generateArg_returns a.1 a.2 s'
      obtain ⟨s'', b, hrun, horigin, hindex, hnamed⟩ := hstep
      refine ⟨s'', hrun, ?_⟩
      have hnext := h.bind hindex hnamed
      rw [horigin] at hnext
      rwa [List.map_append])
  rw [List.nil_append] at hbinds₄
  -- Then the local variables are.
  obtain ⟨s₅, hrun₅, hbinds₅⟩ := Run.exists_returns_forM (f := ASTDeclStmt.generate)
    (l := f.declarations) (s := s₄)
    (fun done s' ↦ s'.Binds s.functionIndex ((p.parameters f).zipIdx.map (fun a ↦
      (a.1, .parameter a.2)) ++ (done.flatMap ASTDeclStmt.vars).map fun d ↦ (d.name, .local d.node)))
    (d := []) (by simpa using hbinds₄)
    (by
      intro stmt hstmt done s' h
      obtain ⟨s'', hrun, hbinds⟩ := ASTDeclStmt.generate_returns (hdecls stmt hstmt) h
      refine ⟨s'', hrun, ?_⟩
      rw [List.append_assoc, ← List.map_append] at hbinds
      rwa [List.flatMap_append, List.flatMap_singleton])
  refine ⟨s₅, ?_, hbinds₅⟩
  unfold ASTFunction.generatePrologue
  refine Run.returns_bind.2 ⟨F, s₁, hrun₁, Run.returns_bind.2 ⟨(), _, Run.returns_access.2 rfl,
    Run.returns_bind.2 ⟨_, s₂, Run.returns_access.2 rfl, Run.returns_bind.2 ⟨(), _,
      Run.returns_access.2 rfl, Run.returns_bind.2 ⟨(), s₃, Run.returns_access.2 rfl, ?_⟩⟩⟩⟩⟩
  exact Run.returns_bind.2 ⟨_, s₃, hnames, Run.returns_bind.2 ⟨(), s₄, hrun₄, hrun₅⟩⟩

theorem ASTProgram.parameters_of_borrows {p : ASTProgram} {f : ASTFunction} (h : p.Borrows f) :
    p.parameters f = [] := by
  unfold ASTProgram.parameters llvmArgs
  rcases h with hname | ⟨hname, g, hg, hmain⟩
  · simp [hname, llvmName]
  · have hllvm : llvmName f.name = "_tip_main" := by rw [hname]; rfl
    rw [hllvm, hname, hg]
    simp [hmain]

theorem ASTProgram.parameters_of_not_borrows {p : ASTProgram} {f : ASTFunction}
    (hf : f ∈ p.functions) (hnodup : (p.functions.map ASTFunction.name).Nodup)
    (h : ¬ p.Borrows f) : p.parameters f = f.formals.map ASTDeclNode.name := by
  unfold ASTProgram.Borrows at h
  rw [not_or, not_and] at h
  unfold ASTProgram.parameters
  by_cases hmain : f.name = "main"
  · rw [if_pos hmain]
  · have hllvm : llvmName f.name = f.name := if_neg hmain
    unfold llvmArgs
    rw [if_neg hmain, hllvm, if_neg h.1]
    obtain ⟨g, hg⟩ := Option.isSome_iff_exists.1
      (List.find?_isSome (p := fun g ↦ decide (llvmName g.name = f.name)) |>.2
        ⟨f, hf, decide_eq_true hllvm⟩)
    have hgname : llvmName g.name = f.name := by
      have hfound := List.find?_some hg
      exact of_decide_eq_true hfound
    have hgmain : g.name ≠ "main" := by
      intro hgm
      have hf' : f.name = "_tip_main" := by rw [← hgname, hgm]; rfl
      exact h.2 hf' ⟨g, hf' ▸ hg, hgm⟩
    unfold llvmName at hgname
    rw [if_neg hgmain] at hgname
    have hgf : g = f := List.inj_on_of_nodup_map hnodup (List.mem_of_find?_eq_some hg) hf hgname
    subst hgf
    rw [hg, Option.map_some, if_neg hgmain]
    rfl

theorem lookup_reverse_of_mem {β : Type} {bs : List (String × β)} (hnodup : (bs.map Prod.fst).Nodup)
    {b : String × β} (hb : b ∈ bs) : bs.reverse.lookup b.1 = some b.2 := by
  have h := lookup_map_of_mem (k := Prod.fst) (g := Prod.snd) (a := b)
    (by rwa [List.map_reverse, List.nodup_reverse]) (List.mem_reverse.2 hb)
  rwa [List.map_id'] at h

theorem ASTFunction.map_fst_bindings (f : ASTFunction) (parameters : List String) :
    (f.bindings parameters).map Prod.fst =
      parameters ++ (f.declarations.flatMap ASTDeclStmt.vars).map ASTDeclNode.name := by
  unfold bindings
  rw [List.map_append, List.map_map, List.map_map]
  congr 1
  exact List.zipIdx_map_fst 0 parameters

/-- Entering a function that has its own LLVM function binds its formals and its local variables. -/
theorem ASTProgram.resolves_local {p : ASTProgram} (hnames : (p.functions.map ASTFunction.name).Nodup)
    (fields : List String) {f : ASTFunction} (hf : f ∈ p.functions)
    (hlocals : (f.localDecls.map ASTDeclNode.name).Nodup)
    (hdecls : ∀ stmt ∈ f.declarations, stmt.vars ≠ []) {d : ASTDeclNode} (hd : d ∈ f.localDecls)
    (hown : ¬ (p.Borrows f ∧ d.name ∈ f.formals.map ASTDeclNode.name)) :
    p.Resolves fields f d.name d.node := by
  obtain ⟨s, hrun, htables, hargs⟩ := p.declareFunctions_returns hnames fields
  obtain ⟨s', hrun', hbinds⟩ := ASTFunction.generatePrologue_returns hf hdecls htables (hargs f hf)
  have hkeys : ((f.bindings (p.parameters f)).map Prod.fst).Nodup := by
    rw [f.map_fst_bindings]
    unfold ASTFunction.localDecls at hlocals
    rw [List.map_append] at hlocals
    by_cases hb : p.Borrows f
    · rw [parameters_of_borrows hb]
      exact hlocals.sublist (List.sublist_append_right _ _)
    · rwa [parameters_of_not_borrows hf hnames hb]
  have hresolve : ∀ o, (d.name, o) ∈ f.bindings (p.parameters f) →
      s'.resolve d.name = some (.alloca o) := by
    intro o ho
    have hnamed := (hbinds.2 d.name).trans (lookup_reverse_of_mem hkeys ho)
    obtain ⟨a, ha, rfl⟩ := Option.map_eq_some_iff.1 hnamed
    unfold CodegenState.resolve
    rw [ha]
  refine ⟨s', ?_⟩
  unfold ASTFunction.localDecls at hd
  rcases List.mem_append.1 hd with hd | hd
  · have hb : ¬ p.Borrows f := fun hb ↦ hown ⟨hb, List.mem_map_of_mem hd⟩
    obtain ⟨i, hi⟩ := List.getElem?_of_mem hd
    refine ⟨.alloca (.parameter i), Run.returns_bind.2 ⟨(), s, hrun, hrun'⟩, hresolve _ ?_, ?_⟩
    · refine List.mem_append_left _ (List.mem_map.2 ⟨(d.name, i), ?_, rfl⟩)
      rw [parameters_of_not_borrows hf hnames hb, List.mk_mem_zipIdx_iff_getElem?,
        List.getElem?_map, hi]
      rfl
    · change f.formals[i]?.map ASTDeclNode.node = some d.node
      rw [hi]
      rfl
  · exact ⟨.alloca (.local d.node), Run.returns_bind.2 ⟨(), s, hrun, hrun'⟩,
      hresolve _ (List.mem_append_right _ (List.mem_map.2 ⟨d, hd, rfl⟩)), rfl⟩

/-- A name that is not bound in a function is looked up among the functions. -/
theorem ASTProgram.resolve_of_unbound {p : ASTProgram}
    (hnames : (p.functions.map ASTFunction.name).Nodup) (fields : List String) {f : ASTFunction}
    (hf : f ∈ p.functions) (hdecls : ∀ stmt ∈ f.declarations, stmt.vars ≠ []) {x : String}
    (hx : x ∉ p.parameters f ++ (f.declarations.flatMap ASTDeclStmt.vars).map ASTDeclNode.name) :
    ∃ s, Run.Returns (p.enterFunction fields f) CodegenState.initial () s ∧
      (∀ k g, p.functions[k]? = some g → g.name = x → s.resolve x = some (.function k)) ∧
      (x ∉ p.functions.map ASTFunction.name → s.resolve x = none) := by
  obtain ⟨s, hrun, htables, hargs⟩ := p.declareFunctions_returns hnames fields
  obtain ⟨s', hrun', hindex, hnamed⟩ :=
    ASTFunction.generatePrologue_returns hf hdecls htables (hargs f hf)
  have hunbound : s'.namedValues x = none := by
    refine Option.map_eq_none_iff.1 ((hnamed x).trans ?_)
    rw [← Option.isNone_iff_eq_none, lookup_isNone_iff, List.map_reverse, List.mem_reverse,
      f.map_fst_bindings]
    exact hx
  have hresolve : s'.resolve x = (s.functionIndex x).map .function := by
    unfold CodegenState.resolve
    rw [hunbound, hindex]
  refine ⟨s', Run.returns_bind.2 ⟨(), s, hrun, hrun'⟩, ?_, fun hfun ↦ ?_⟩
  · rintro k g hk rfl
    rw [hresolve, htables.functionIndex k g hk]
    rfl
  · rw [hresolve, htables.functionIndex_eq_none x hfun]
    rfl

theorem ASTFunction.vars_ne_nil_of_returns {f : ASTFunction} {s s' : CodegenState}
    (h : Run.Returns f.generatePrologue s () s') : ∀ stmt ∈ f.declarations, stmt.vars ≠ [] := by
  unfold ASTFunction.generatePrologue at h
  obtain ⟨F, s₂, -, h⟩ := Run.returns_bind.1 h
  obtain ⟨-, s₃, -, h⟩ := Run.returns_bind.1 h
  obtain ⟨entry, s₄, -, h⟩ := Run.returns_bind.1 h
  obtain ⟨-, s₅, -, h⟩ := Run.returns_bind.1 h
  obtain ⟨-, s₆, -, h⟩ := Run.returns_bind.1 h
  obtain ⟨names, s₇, -, h⟩ := Run.returns_bind.1 h
  obtain ⟨-, s₈, -, h⟩ := Run.returns_bind.1 h
  intro stmt hstmt
  obtain ⟨s₉, s₁₀, hrun⟩ := Run.returns_of_forM h stmt hstmt
  exact ASTDeclStmt.vars_ne_nil_of_returns hrun

theorem ASTProgram.vars_ne_nil_of_returns {p : ASTProgram} {fields : List String} {f : ASTFunction}
    {s s' : CodegenState} (h : Run.Returns (p.enterFunction fields f) s () s') :
    ∀ stmt ∈ f.declarations, stmt.vars ≠ [] := by
  unfold ASTProgram.enterFunction at h
  obtain ⟨-, s₁, -, h⟩ := Run.returns_bind.1 h
  exact ASTFunction.vars_ne_nil_of_returns h

theorem SymbolTable.Describes.not_mem_names {p : ASTProgram} {st : SymbolTable} (h : st.Describes p)
    {x : String} (hx : st.getFunction x = none) : x ∉ p.functions.map ASTFunction.name := by
  intro hmem
  obtain ⟨g, hg, rfl⟩ := List.mem_map.1 hmem
  rw [h.getFunction g hg] at hx
  cases hx

/-- Where a variable of `f` is resolved, no declaration statement is empty, and `f` does not use a
formal of a borrowed function. -/
theorem ASTProgram.NamesResolve.own {p : ASTProgram} (hp : p.NamesResolve) {st : SymbolTable}
    (hb : SymbolTable.build p = .ok st) {f : ASTFunction} (hf : f ∈ p.functions) {x : String}
    (hx : f.Uses x) : (∀ stmt ∈ f.declarations, stmt.vars ≠ []) ∧
      ¬ (p.Borrows f ∧ x ∈ f.formals.map ASTDeclNode.name) := by
  have h := SymbolTable.build_spec hb
  obtain ⟨d, -, s, e, hrun, he, -⟩ := hp.2 st hb f hf x hx
  have hdecls := vars_ne_nil_of_returns hrun
  refine ⟨hdecls, fun ⟨hborrows, hformal⟩ ↦ ?_⟩
  obtain ⟨d, hd, rfl⟩ := List.mem_map.1 hformal
  have hunbound : d.name ∉ p.parameters f ++
      (f.declarations.flatMap ASTDeclStmt.vars).map ASTDeclNode.name := by
    have hlocals := h.locals_nodup f hf
    unfold ASTFunction.localDecls at hlocals
    rw [List.map_append] at hlocals
    rw [parameters_of_borrows hborrows, List.nil_append]
    exact List.disjoint_of_nodup_append hlocals hformal
  obtain ⟨s', hrun', -, hnone⟩ :=
    p.resolve_of_unbound h.names_nodup st.getFields hf hdecls hunbound
  have hlocal : d ∈ f.localDecls := List.mem_append_left _ hd
  rw [← (hrun.unique hrun').2, hnone (h.not_mem_names (h.local_not_function f hf d hlocal))] at he
  cases he

/-- A variable is a local or a function, and not both. Where `f` has its own formals, the code
generator takes it for the same. -/
theorem SymbolTable.Describes.resolves {p : ASTProgram} {st : SymbolTable} (h : st.Describes p)
    {f : ASTFunction} (hf : f ∈ p.functions) {x : String} (hx : f.Uses x)
    (hdecls : ∀ stmt ∈ f.declarations, stmt.vars ≠ [])
    (hown : ¬ (p.Borrows f ∧ x ∈ f.formals.map ASTDeclNode.name)) :
    ∃ d, (st.getLocal x f.decl.node = some d ∧ st.getFunction x = none ∨
        st.getLocal x f.decl.node = none ∧ st.getFunction x = some d) ∧
      p.Resolves st.getFields f x d := by
  obtain ⟨n, hn⟩ := hx
  by_cases hlocal : x ∈ f.localDecls.map ASTDeclNode.name
  · obtain ⟨d, hd, rfl⟩ := List.mem_map.1 hlocal
    exact ⟨d.node, Or.inl ⟨h.getLocal f hf d hd, h.local_not_function f hf d hd⟩,
      p.resolves_local h.names_nodup _ hf (h.locals_nodup f hf) hdecls hd hown⟩
  · have hknown := (h.known f hf n x hn).resolve_right hlocal
    obtain ⟨d, hd⟩ := Option.isSome_iff_exists.1 hknown
    obtain ⟨g, hg, rfl, rfl⟩ := h.of_getFunction x d hd
    have hnone : st.getLocal g.name f.decl.node = none := by
      cases hl : st.getLocal g.name f.decl.node with
      | none => rfl
      | some m =>
        obtain ⟨d', hd', hname, -⟩ := h.of_getLocal f hf _ _ hl
        exact absurd (hname ▸ List.mem_map_of_mem hd') hlocal
    have hunbound : g.name ∉ p.parameters f ++
        (f.declarations.flatMap ASTDeclStmt.vars).map ASTDeclNode.name := by
      unfold ASTFunction.localDecls at hlocal
      rw [List.map_append, List.mem_append, not_or] at hlocal
      rw [List.mem_append, not_or]
      refine ⟨?_, hlocal.2⟩
      by_cases hborrows : p.Borrows f
      · rw [ASTProgram.parameters_of_borrows hborrows]
        exact List.not_mem_nil
      · rw [ASTProgram.parameters_of_not_borrows hf h.names_nodup hborrows]
        exact hlocal.1
    obtain ⟨s, hrun, hres, -⟩ :=
      p.resolve_of_unbound h.names_nodup st.getFields hf hdecls hunbound
    obtain ⟨k, hk⟩ := List.getElem?_of_mem hg
    refine ⟨g.decl.node, Or.inr ⟨hnone, hd⟩, s, .function k, hrun, hres k g hk rfl, ?_⟩
    change p.functions[k]?.map (fun g ↦ g.decl.node) = some g.decl.node
    rw [hk]
    rfl

end Sipc
