import Sipc.Codegen.NameResolution
import Sipc.Codegen.Renumbering

/-!
# The declarations of a program

Before the functions of a program are generated, the code generator fills its tables and declares one
LLVM function for every function, unless one of that name is there. Whatever state this starts in, the
module it ends with is the same but for the number of the module, the arguments of the program and the
`_tip_main` of a program without `main`: `ASTProgram.declared` is the state that is reached
(`ASTProgram.returns_declareFunctions`).
-/

set_option autoImplicit false
set_option relaxedAutoImplicit false

namespace Sipc

open Llvm Library

/-! ### Results of single steps -/

section Steps

variable {s : CodegenState}

theorem returns_get : Run.Returns get s s s :=
  Run.returns_access.2 rfl

theorem returns_modify {f : CodegenState → CodegenState} : Run.Returns (modify f) s () (f s) :=
  Run.returns_access.2 rfl

theorem returns_createFunction {name : String} {args : List String} {r : Kind} :
    Run.Returns (createFunction name args r) s ⟨s.serial, s.module.functions.length, r⟩
      (s.create name args r) :=
  Run.returns_access.2 rfl

theorem returns_createBlock : Run.Returns createBlock s
    ((s.module.functions[s.insertFunction]?.map fun f ↦ f.blocks.length).getD 0)
    { s with module := s.module.addBlock s.insertFunction } :=
  Run.returns_access.2 rfl

theorem returns_setInsertPoint {l : IR.Label} :
    Run.Returns (setInsertPoint l) s () { s with insertBlock := l } :=
  Run.returns_access.2 rfl

theorem returns_emitUnit {i : Instruction} : Run.Returns (emitUnit i) s () (s.insert i) :=
  Run.returns_access.2 rfl

/-- A declared function is found. -/
theorem getFunction_of_find {name : String} {k : ℕ} (h : s.module.find (llvmName name) = some k) :
    Run.Returns (getFunction name) s ⟨s.serial, k, .int⟩ s := by
  unfold getFunction
  rw [returns_get.bind_iff]
  unfold llvmName at h
  by_cases hmain : name = "main"
  · rw [if_pos hmain] at h
    rw [if_pos hmain, h]
    exact Run.returns_pure.2 ⟨rfl, rfl⟩
  · rw [if_neg hmain] at h
    rw [if_neg hmain, h]
    exact Run.returns_pure.2 ⟨rfl, rfl⟩

/-- A function that is not found is created. -/
theorem getFunction_of_not_find {name : String} (h : s.module.find (llvmName name) = none) :
    Run.Returns (getFunction name) s ⟨s.serial, s.module.functions.length, .int⟩
      (CodegenState.create
        { s with
          numTIPArgs := if name = "main" then (s.functionFormalNames name).length else s.numTIPArgs }
        (llvmName name) (if name = "main" then [] else s.functionFormalNames name) .int) := by
  unfold getFunction
  rw [returns_get.bind_iff]
  unfold llvmName at h ⊢
  by_cases hmain : name = "main"
  · rw [if_pos hmain] at h
    rw [if_pos hmain, if_pos hmain, if_pos hmain, if_pos hmain, h]
    exact returns_modify.bind_iff.2 returns_createFunction
  · rw [if_neg hmain] at h
    rw [if_neg hmain, if_neg hmain, if_neg hmain, if_neg hmain, h]
    exact returns_createFunction

end Steps

/-! ### The functions of the program -/

/-- The LLVM function that is created for a function. -/
def ASTFunction.declaration (f : ASTFunction) : Llvm.Function :=
  ⟨llvmName f.name, if f.name = "main" then [] else f.formals.map ASTDeclNode.name, .int, []⟩

/-- A function is declared unless one of that name is. -/
def addDeclaration (fs : List Llvm.Function) (f : ASTFunction) : List Llvm.Function :=
  if llvmName f.name ∈ fs.map Llvm.Function.name then fs else fs ++ [f.declaration]

def nopDeclaration : Llvm.Function :=
  ⟨"llvm.donothing", [], .void, []⟩

/-- The functions of the module after all functions of the program are declared. -/
def declarations (fs : List ASTFunction) : List Llvm.Function :=
  fs.foldl addDeclaration [nopDeclaration]

/-- The place of the LLVM function of a name. -/
def place (fs : List Llvm.Function) (name : String) : ℕ :=
  fs.findIdx fun g ↦ g.name = llvmName name

/-- The number of arguments of the program, which is stored when the function `main` is declared. -/
def argCount (fs : List ASTFunction) : Option ℕ :=
  (fs.find? fun f ↦ llvmName f.name = "_tip_main").bind fun f ↦
    if f.name = "main" then some f.formals.length else none

section Declarations

variable {fs : List Llvm.Function} {f : ASTFunction}

theorem Llvm.Module.find_eq_none_iff {m : Module} {name : String} :
    m.find name = none ↔ name ∉ m.functions.map Llvm.Function.name := by
  unfold find
  rw [List.findIdx?_eq_none_iff]
  simp

theorem Llvm.Module.find_eq_place {m : Module} {name : String}
    (h : llvmName name ∈ m.functions.map Llvm.Function.name) :
    m.find (llvmName name) = some (place m.functions name) := by
  obtain ⟨g, hg, hname⟩ := List.mem_map.1 h
  exact List.findIdx?_eq_some_of_exists ⟨g, hg, decide_eq_true hname⟩

theorem mem_addDeclaration (name : String) :
    name ∈ (addDeclaration fs f).map Llvm.Function.name ↔
      name ∈ fs.map Llvm.Function.name ∨ llvmName f.name = name := by
  unfold addDeclaration
  split_ifs with h
  · exact ⟨Or.inl, fun hname ↦ hname.elim id fun hname ↦ hname ▸ h⟩
  · rw [List.map_append, List.mem_append]
    refine or_congr_right ?_
    simp [ASTFunction.declaration, eq_comm]

/-- The functions that are declared later come behind. -/
theorem prefix_addDeclaration : fs <+: addDeclaration fs f := by
  unfold addDeclaration
  split_ifs
  · exact List.prefix_refl _
  · exact List.prefix_append _ _

theorem place_eq_of_isPrefix {fs' : List Llvm.Function} (h : fs <+: fs') {name : String}
    (hname : llvmName name ∈ fs.map Llvm.Function.name) : place fs' name = place fs name := by
  obtain ⟨new, rfl⟩ := h
  obtain ⟨g, hg, hg'⟩ := List.mem_map.1 hname
  unfold place
  rw [List.findIdx_append, if_pos (List.findIdx_lt_length_of_exists ⟨g, hg, decide_eq_true hg'⟩)]

/-- One step of the loop over the functions. -/
theorem returns_getFunction {s : CodegenState}
    (hformals : s.functionFormalNames f.name = f.formals.map ASTDeclNode.name) :
    Run.Returns (getFunction f.name) s
      ⟨s.serial, place (addDeclaration s.module.functions f) f.name, .int⟩
      { s with
        module := { s.module with functions := addDeclaration s.module.functions f }
        numTIPArgs := if llvmName f.name ∈ s.module.functions.map Llvm.Function.name then
          s.numTIPArgs else if f.name = "main" then f.formals.length else s.numTIPArgs } := by
  by_cases hmem : llvmName f.name ∈ s.module.functions.map Llvm.Function.name
  · have hadd : addDeclaration s.module.functions f = s.module.functions := if_pos hmem
    rw [hadd, if_pos hmem]
    exact getFunction_of_find (Module.find_eq_place hmem)
  · have hadd : addDeclaration s.module.functions f = s.module.functions ++ [f.declaration] :=
      if_neg hmem
    have hplace : place (s.module.functions ++ [f.declaration]) f.name = s.module.functions.length := by
      have hlength := List.findIdx_eq_length.2 fun g hg ↦ decide_eq_false fun hname ↦
        hmem (List.mem_map.2 ⟨g, hg, hname⟩)
      unfold place
      rw [List.findIdx_append, hlength, if_neg (Nat.lt_irrefl _)]
      simp [ASTFunction.declaration]
    have hfresh : s.module.freshName (llvmName f.name) = llvmName f.name := if_neg hmem
    have hrun := getFunction_of_not_find (Module.find_eq_none_iff.2 hmem)
    rw [hformals, List.length_map, CodegenState.create, Module.create, hfresh] at hrun
    rw [hadd, if_neg hmem, hplace]
    exact hrun

theorem declarations_append (fs : List ASTFunction) (f : ASTFunction) :
    declarations (fs ++ [f]) = addDeclaration (declarations fs) f := by
  unfold declarations
  rw [List.foldl_append]
  rfl

theorem mem_declarations {fs : List ASTFunction} {name : String} :
    name ∈ (declarations fs).map Llvm.Function.name ↔
      name = "llvm.donothing" ∨ ∃ f ∈ fs, llvmName f.name = name := by
  induction fs using List.reverseRecOn with
  | nil => simp [declarations, nopDeclaration]
  | append_singleton fs f ih =>
    rw [declarations_append, mem_addDeclaration, ih, or_assoc]
    refine or_congr_right ?_
    simp only [List.mem_append, List.mem_singleton, or_and_right, exists_or, exists_eq_left]

theorem declared_mem {fs : List ASTFunction} {f : ASTFunction} (hf : f ∈ fs) :
    llvmName f.name ∈ (declarations fs).map Llvm.Function.name :=
  mem_declarations.2 (Or.inr ⟨f, hf, rfl⟩)

/-- The arguments are counted when the first function of the name `_tip_main` is declared. -/
theorem argCount_append (fs : List ASTFunction) (f : ASTFunction) (n : ℕ) :
    (argCount (fs ++ [f])).getD n =
      if llvmName f.name ∈ (declarations fs).map Llvm.Function.name then (argCount fs).getD n
      else if f.name = "main" then f.formals.length else (argCount fs).getD n := by
  unfold argCount
  rw [List.find?_append]
  by_cases hmain : llvmName f.name = "_tip_main"
  · cases hfind : fs.find? fun f ↦ llvmName f.name = "_tip_main" with
    | some g =>
      have hmem : llvmName f.name ∈ (declarations fs).map Llvm.Function.name :=
        mem_declarations.2 (Or.inr ⟨g, List.mem_of_find?_eq_some hfind,
          (by simpa using List.find?_some hfind : llvmName g.name = _).trans hmain.symm⟩)
      rw [if_pos hmem]
      rfl
    | none =>
      have hmem : llvmName f.name ∉ (declarations fs).map Llvm.Function.name := by
        rw [mem_declarations, hmain]
        rintro (hnop | ⟨g, hg, hname⟩)
        · exact absurd hnop (by decide)
        · exact List.find?_eq_none.1 hfind g hg (decide_eq_true hname)
      rw [if_neg hmem, Option.none_or, List.find?_singleton, if_pos (decide_eq_true hmain)]
      by_cases hf : f.name = "main" <;> simp [hf]
  · have hf : f.name ≠ "main" := by
      rintro hf
      exact hmain (by rw [hf]; rfl)
    rw [if_neg hf, ite_self, List.find?_singleton, if_neg (by simpa using hmain), Option.or_none]

/-- The state in which the functions are declared. -/
def ASTProgram.tables (p : ASTProgram) (s : CodegenState) : CodegenState :=
  CodegenState.addFunctions
    { s with
      serial := s.serial + 1
      module := ⟨[nopDeclaration], [], 0⟩
      nop := some ⟨s.serial + 1, 0, .void⟩ } p.functions

theorem Llvm.CodegenState.addFunctions_frame (fs : List ASTFunction) (s : CodegenState) :
    s.addFunctions fs =
      { s with
        functionIndex := (s.addFunctions fs).functionIndex
        functionFormalNames := (s.addFunctions fs).functionFormalNames } := by
  unfold addFunctions
  generalize fs.zipIdx = l
  induction l generalizing s with
  | nil => rfl
  | cons a l ih =>
    rw [List.foldl_cons]
    exact ih _

theorem Llvm.CodegenState.addFields_frame (fields : List String) (s : CodegenState) :
    s.addFields fields =
      { s with
        fieldIndex := (s.addFields fields).fieldIndex
        recordFields := fields.length } := by
  unfold addFields
  generalize fields.zipIdx = l
  induction l generalizing s with
  | nil => rfl
  | cons a l ih =>
    rw [List.foldl_cons]
    exact ih _

/-- The loop over the functions declares them. -/
theorem ASTProgram.returns_mapM {p : ASTProgram} {s : CodegenState}
    (hformals : ∀ f ∈ p.functions, s.functionFormalNames f.name = f.formals.map ASTDeclNode.name)
    (hfunctions : s.module.functions = [nopDeclaration]) :
    Run.Returns (p.functions.mapM fun f ↦ getFunction f.name) s
      (p.functions.map fun f ↦ ⟨s.serial, place (declarations p.functions) f.name, .int⟩)
      { s with
        module := { s.module with functions := declarations p.functions }
        numTIPArgs := (argCount p.functions).getD s.numTIPArgs } := by
  obtain ⟨refs, t, hrun, ht, hrefs⟩ := Run.exists_returns_mapM (f := fun f ↦ getFunction f.name)
    (l := p.functions) (s := s) (fun done refs t ↦ t =
      { s with
        module := { s.module with functions := declarations done }
        numTIPArgs := (argCount done).getD s.numTIPArgs } ∧
      refs = done.map fun f ↦ ⟨s.serial, place (declarations done) f.name, .int⟩)
    (d := []) (r := []) ⟨by rw [show declarations [] = s.module.functions from hfunctions.symm]; rfl,
      rfl⟩
    (by
      rintro f hf done refs t ⟨rfl, rfl⟩
      refine ⟨_, _, returns_getFunction (hformals f hf), ?_, ?_⟩
      · rw [declarations_append, argCount_append]
      · rw [List.map_append, declarations_append]
        congr 1
        refine List.map_congr_left fun g hg ↦ ?_
        rw [place_eq_of_isPrefix prefix_addDeclaration (declared_mem hg)])
  simp only [List.nil_append] at ht hrefs
  rw [← ht, ← hrefs]
  exact hrun

/-! ### The rest of the module -/

/-- The state in which the `_tip_main` of a program without `main` is generated. -/
def Llvm.CodegenState.undefinedEntry (s : CodegenState) : CodegenState :=
  { s with
    module := ((s.module.create "_tip_main" [] .int).addBlock s.module.functions.length).create
      "_tip_main_undefined" [] .void
    insertFunction := s.module.functions.length
    insertBlock := 0 }

/-- The function of the runtime that it calls. -/
def Llvm.CodegenState.undefinedRef (s : CodegenState) : FunctionRef :=
  ⟨s.serial, s.module.functions.length + 1, .void⟩

/-- The state after it is generated. -/
def Llvm.CodegenState.undefinedMain (s : CodegenState) : CodegenState :=
  (s.undefinedEntry.insert (.call (.function s.undefinedRef) [])).insert (.ret (.const 0))

/-- The state after the dispatch table is made. -/
def ASTProgram.dispatching (p : ASTProgram) (s : CodegenState) : CodegenState :=
  { p.tables s with
    module := ⟨declarations p.functions,
      p.functions.map fun f ↦ ⟨s.serial + 1, place (declarations p.functions) f.name, .int⟩, 0⟩
    numTIPArgs := (argCount p.functions).getD s.numTIPArgs }

/-- The state after `_tip_main` is made sure of. -/
def Llvm.CodegenState.withMain (s : CodegenState) : CodegenState :=
  if (s.functionIndex "main").isNone then s.undefinedMain else s

/-- The state after the globals for the inputs and `calloc` are declared. -/
def Llvm.CodegenState.withCalloc (s : CodegenState) : CodegenState :=
  { s with
    module := { s.module with numInputs := s.numTIPArgs }.create "calloc" [] .pointer
    calloc := some ⟨s.serial, s.module.functions.length, .pointer⟩ }

/-- The state before the functions are generated. -/
def ASTProgram.declared (p : ASTProgram) (fields : List String) (s : CodegenState) : CodegenState :=
  (p.dispatching s).withMain.withCalloc.addFields fields

theorem returns_ensureMain (s : CodegenState) :
    Run.Returns ensureMain s () s.withMain := by
  unfold ensureMain CodegenState.withMain
  rw [returns_get.bind_iff]
  split_ifs with hmain
  · unfold generateUndefinedMain
    have hentry : (((s.create "_tip_main" [] .int).module.functions[s.module.functions.length]?.map
        fun f ↦ f.blocks.length).getD 0) = 0 := by
      simp [CodegenState.create, Module.create]
    have hundef : ((s.create "_tip_main" [] .int).module.addBlock
        s.module.functions.length).functions.length = s.module.functions.length + 1 := by
      simp [CodegenState.create, Module.create, Module.addBlock]
    rw [returns_createFunction.bind_iff, returns_modify.bind_iff, returns_createBlock.bind_iff]
    rw [returns_setInsertPoint.bind_iff, returns_createFunction.bind_iff, hentry, hundef]
    exact returns_emitUnit.bind_iff.2 returns_emitUnit
  · exact Run.returns_pure.2 ⟨rfl, rfl⟩

theorem ASTProgram.returns_declareFunctions {p : ASTProgram}
    (hnodup : (p.functions.map ASTFunction.name).Nodup) (fields : List String) (s : CodegenState) :
    Run.Returns (p.declareFunctions fields) s () (p.declared fields s) := by
  have hmapM : Run.Returns (p.functions.mapM fun f ↦ getFunction f.name) (p.tables s)
      (p.functions.map fun f ↦ ⟨s.serial + 1, place (declarations p.functions) f.name, .int⟩)
      { p.tables s with
        module := ⟨declarations p.functions, [], 0⟩
        numTIPArgs := (argCount p.functions).getD s.numTIPArgs } := by
    have hrun := p.returns_mapM (s := p.tables s) (fun f hf ↦ ?_) ?_
    · rw [show p.tables s = _ from CodegenState.addFunctions_frame _ _] at hrun ⊢
      exact hrun
    · obtain ⟨k, hk⟩ := List.getElem?_of_mem hf
      exact ((CodegenState.addFunctions_spec hnodup _).1 k f hk).2
    · rw [show p.tables s = _ from CodegenState.addFunctions_frame _ _]
  unfold declareFunctions
  rw [returns_modify.bind_iff, returns_createFunction.bind_iff, returns_modify.bind_iff,
    returns_modify.bind_iff]
  change Run.Returns _ (p.tables s) () _
  rw [hmapM.bind_iff, returns_modify.bind_iff, (returns_ensureMain _).bind_iff, returns_modify.bind_iff,
    returns_createFunction.bind_iff, returns_modify.bind_iff]
  exact returns_modify

/-! ### What is left of the state before -/

theorem Llvm.CodegenState.withMain_frame (s : CodegenState) : s.withMain =
    { s with
      module := s.withMain.module
      insertFunction := s.withMain.insertFunction
      insertBlock := s.withMain.insertBlock
      nextId := s.withMain.nextId } := by
  unfold withMain
  split_ifs <;> rfl

theorem ASTProgram.dispatching_frame (p : ASTProgram) (s : CodegenState) : p.dispatching s =
    { s with
      serial := s.serial + 1
      module := (p.dispatching s).module
      numTIPArgs := (argCount p.functions).getD s.numTIPArgs
      nop := some ⟨s.serial + 1, 0, .void⟩
      functionIndex := (p.tables s).functionIndex
      functionFormalNames := (p.tables s).functionFormalNames } := by
  unfold dispatching tables
  rw [CodegenState.addFunctions_frame]

section Projections

variable (p : ASTProgram) (s : CodegenState)

@[simp] theorem ASTProgram.dispatching_serial : (p.dispatching s).serial = s.serial + 1 := by
  rw [dispatching_frame]

@[simp] theorem ASTProgram.dispatching_nextId : (p.dispatching s).nextId = s.nextId := by
  rw [dispatching_frame]

@[simp] theorem ASTProgram.dispatching_functionIndex :
    (p.dispatching s).functionIndex = (p.tables s).functionIndex := by
  rw [dispatching_frame]

@[simp] theorem ASTProgram.dispatching_fieldIndex : (p.dispatching s).fieldIndex = s.fieldIndex := by
  rw [dispatching_frame]

@[simp] theorem Llvm.CodegenState.withMain_serial : s.withMain.serial = s.serial := by
  rw [withMain_frame]

@[simp] theorem Llvm.CodegenState.withMain_fieldIndex : s.withMain.fieldIndex = s.fieldIndex := by
  rw [withMain_frame]

@[simp] theorem Llvm.CodegenState.withMain_numTIPArgs : s.withMain.numTIPArgs = s.numTIPArgs := by
  rw [withMain_frame]

end Projections

/-- The tables are filled, and everything else but the module and the insertion point is left. -/
theorem ASTProgram.declared_frame (p : ASTProgram) (fields : List String) (s : CodegenState) :
    p.declared fields s =
      { s with
        functionIndex := (p.tables s).functionIndex
        functionFormalNames := (p.tables s).functionFormalNames
        fieldIndex := (p.declared fields s).fieldIndex
        recordFields := fields.length
        numTIPArgs := (argCount p.functions).getD s.numTIPArgs
        nop := some ⟨s.serial + 1, 0, .void⟩
        calloc := (p.declared fields s).calloc
        serial := s.serial + 1
        module := (p.declared fields s).module
        insertFunction := (p.declared fields s).insertFunction
        insertBlock := (p.declared fields s).insertBlock
        nextId := (p.declared fields s).nextId } := by
  unfold declared
  rw [CodegenState.addFields_frame]
  unfold CodegenState.withCalloc
  rw [CodegenState.withMain_frame, dispatching_frame]

/-- The module, the value numbers and `calloc` are those of the last but one step. -/
theorem ASTProgram.declared_module (p : ASTProgram) (fields : List String) (s : CodegenState) :
    (p.declared fields s).module = (p.dispatching s).withMain.withCalloc.module ∧
      (p.declared fields s).nextId = (p.dispatching s).withMain.nextId ∧
      (p.declared fields s).calloc = (p.dispatching s).withMain.withCalloc.calloc := by
  unfold declared
  rw [CodegenState.addFields_frame]
  exact ⟨rfl, rfl, rfl⟩

end Declarations

end Sipc
