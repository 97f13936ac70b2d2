import Sipc.Codegen.Declarations
import Sipc.Codegen.SameCode

/-!
# The same program twice

The functions of a program are generated one after the other, and their code follows itself
(`ASTFunction.follows_generate`). Before them, the tables of the program are filled and the functions
are declared.
-/

set_option autoImplicit false
set_option relaxedAutoImplicit false

namespace Sipc

open Llvm Library

/-! ### Functions -/

section Functions

variable {d : Offset} {U : CodeUses} {n : ℕ} {s s' : CodegenState}

/-- The state after the LLVM function of a function is entered. -/
def Llvm.CodegenState.enter (s : CodegenState) (k : ℕ) : CodegenState :=
  { s with
    insertFunction := k
    module := s.module.addBlock k
    insertBlock := (s.module.functions[k]?.map fun f ↦ f.blocks.length).getD 0
    namedValues := fun _ ↦ none }

/-- The parameters of a function whose LLVM function is the `k`-th. -/
def Llvm.CodegenState.parameters (s : CodegenState) (f : ASTFunction) (k : ℕ) : List String :=
  if f.name = "main" then s.functionFormalNames f.name
  else (s.module.functions[k]?.map Llvm.Function.args).getD []

/-- The bindings of the parameters and of the local variables. -/
def ASTFunction.bindAll (f : ASTFunction) (names : List String) : Generate Unit := do
  names.zipIdx.forM fun (name, i) ↦
    if f.name = "main" then generateMainArg name i else generateArg name i
  f.declarations.forM ASTDeclStmt.generate

/-! ### The names of a function -/

/-- What the code may look up, with other variables. -/
def CodeUses.naming (U : CodeUses) (names : String → Prop) : CodeUses :=
  { U with names := names }

section Naming

variable {names : String → Prop}

theorem Llvm.Linked.naming (h : Linked U s) : Linked (U.naming names) s :=
  { h with }

theorem Llvm.Linked.of_naming (h : Linked (U.naming names) s) : Linked U s :=
  { h with }

theorem Llvm.Between.naming (h : Between d U s s') : Between d (U.naming names) s s' :=
  { h with linked := fun hfresh ↦ (h.linked hfresh).naming }

theorem Llvm.Between.of_naming (h : Between d (U.naming names) s s') : Between d U s s' :=
  { h with linked := fun hfresh ↦ (h.linked hfresh).of_naming }

theorem Llvm.Grows.of_naming {t : CodegenState} (h : Grows (U.naming names) s t) : Grows U s t :=
  { h with }

end Naming

/-- A function is entered before any of its variables is bound. -/
theorem Llvm.Between.enter (h : Between d U s s') {k : ℕ} (hk : k < s.module.functions.length)
    (hnames : ∀ x, ¬ U.names x) : Ahead d U 1 (s.enter k) (s'.enter k) :=
  { h with
    module := by
      change s'.module.addBlock k = _
      rw [h.module]
      exact (s.module.addBlock_shift d k).symm
    linked := fun hfresh ↦ (h.linked hfresh).congr Module.instructions_addBlock Module.names_addBlock
      rfl rfl rfl rfl
    insertFunction := rfl
    insertBlock := by
      change Option.getD _ 0 = Option.getD _ 0
      rw [h.module, Module.length_blocks_shift]
    namedValues := fun _ ↦ rfl
    resolves := fun _ x hx ↦ absurd hx (hnames x)
    inBlock := (Nat.lt_succ_self _).trans_eq (Module.blockCount_addBlock hk).symm
    bound := (Nat.le_add_left 1 _).trans_eq (Module.blockCount_addBlock hk).symm }

theorem Llvm.Grows.enter (s : CodegenState) (k : ℕ) : Grows U s (s.enter k) :=
  { Grows.refl (U := U) s with
    instructions := by
      change _ ⊆ (s.module.addBlock k).instructions
      rw [Module.instructions_addBlock]
      exact List.Subset.refl _
    signatures := by
      change _ <+: (s.module.addBlock k).signatures
      rw [Module.signatures_addBlock] }

/-! ### Variables -/

theorem follows_forM {α : Type} {f : α → Generate Unit} {l : List α}
    (h : ∀ a ∈ l, FollowsAny d U n (f a) (f a) fun _ ↦ False) :
    FollowsAny d U n (l.forM f) (l.forM f) fun _ ↦ False := by
  induction l with
  | nil => exact follows_pure ()
  | cons a l ih =>
    exact (h a List.mem_cons_self).next fun _ ↦ ih fun b hb ↦ h b (List.mem_cons_of_mem _ hb)

theorem follows_bindName (name : String) (a : Alloca) :
    FollowsAny d U n (bindName name a) (bindName name (shift d a)) fun _ ↦ False :=
  follows_access fun s s' h ↦ ⟨rfl,
    { h with
      linked := fun hfresh ↦ (h.linked hfresh).congr rfl rfl rfl rfl rfl rfl
      namedValues := fun x ↦ by
        change Function.update s'.namedValues name _ x = shift d (Function.update s.namedValues name _ x)
        by_cases hx : x = name
        · subst hx
          rw [Function.update_self, Function.update_self]
          rfl
        · rw [Function.update_of_ne hx, Function.update_of_ne hx]
          exact h.namedValues x
      resolves := fun htotal x hx ↦ by
        by_cases hname : x = name
        · subst hname
          exact Or.inl (by simp)
        · refine (h.resolves htotal x hx).imp_left fun hsome ↦ ?_
          change (Function.update s.namedValues name (some a) x).isSome
          rw [Function.update_of_ne hname]
          exact hsome },
    { Grows.refl (U := U) s with }⟩

theorem ASTDeclNode.follows_generateLocal (v : ASTDeclNode) :
    FollowsAny d U n v.generateLocal v.generateLocal fun _ ↦ False := by
  unfold generateLocal
  refine (follows_createEntryBlockAlloca (.local v.node)).next fun localAlloca ↦ ?_
  refine (follows_emitUnit (.store (.const 0) localAlloca.operand)).next fun _ ↦ ?_
  exact follows_bindName v.name localAlloca

theorem follows_generateMainArg (name : String) (i : ℕ) :
    FollowsAny d U n (generateMainArg name i) (generateMainArg name i) fun _ ↦ False := by
  unfold generateMainArg
  refine (follows_createEntryBlockAlloca (.parameter i)).next fun argAlloc ↦ ?_
  refine (follows_emit (.inputPtr i)).next fun gep ↦ (follows_emit (.load gep)).next fun inVal ↦ ?_
  refine (follows_emitUnit (.store inVal argAlloc.operand)).next fun _ ↦ ?_
  exact follows_bindName name argAlloc

theorem follows_generateArg (name : String) (i : ℕ) :
    FollowsAny d U n (generateArg name i) (generateArg name i) fun _ ↦ False := by
  unfold generateArg
  refine (follows_createEntryBlockAlloca (.parameter i)).next fun argAlloc ↦ ?_
  refine (follows_emitUnit (.store (.arg i) argAlloc.operand)).next fun _ ↦ ?_
  exact follows_bindName name argAlloc

theorem ASTDeclStmt.follows_generate {st : ASTDeclStmt} (hvars : U.total → st.vars ≠ []) :
    FollowsAny d U n st.generate st.generate fun _ ↦ False := by
  unfold generate
  refine (follows_forM fun v _ ↦ v.follows_generateLocal).next fun _ ↦ ?_
  split_ifs with hempty
  · exact fun _ _ _ ↦ Run.relates_fail fun htotal ↦ hvars htotal (by simpa using hempty)
  · exact follows_pure ()

theorem ASTFunction.follows_bindAll {f : ASTFunction}
    (hdecls : U.total → ∀ st ∈ f.declarations, st.vars ≠ []) (names : List String) :
    FollowsAny d U n (f.bindAll names) (f.bindAll names) fun _ ↦ False := by
  unfold bindAll
  refine (follows_forM fun a _ ↦ ?_).next fun _ ↦
    follows_forM fun st hst ↦ ASTDeclStmt.follows_generate fun htotal ↦ hdecls htotal st hst
  change FollowsAny d U n (if f.name = "main" then generateMainArg a.1 a.2 else generateArg a.1 a.2)
    (if f.name = "main" then generateMainArg a.1 a.2 else generateArg a.1 a.2) _
  split_ifs
  · exact follows_generateMainArg a.1 a.2
  · exact follows_generateArg a.1 a.2

/-! ### Functions -/

/-- A function that is declared is entered, and its variables are bound there. -/
theorem ASTFunction.returns_generatePrologue {f : ASTFunction} {k : ℕ}
    (hk : s.module.find (llvmName f.name) = some k) {t : CodegenState} :
    Run.Returns f.generatePrologue s () t ↔
      Run.Returns (f.bindAll (s.parameters f k)) (s.enter k) () t := by
  have hargs : ((s.enter k).module.functions[k]?.map Llvm.Function.args) =
      s.module.functions[k]?.map Llvm.Function.args := by
    change ((s.module.functions.modify k _)[k]?.map _) = _
    rw [List.getElem?_modify, Option.map_eq_map, Option.map_map]
    congr 1
    funext g
    simp
  have hnames : Run.Returns (parameterNames f ⟨s.serial, k, .int⟩) (s.enter k) (s.parameters f k)
      (s.enter k) := by
    unfold parameterNames CodegenState.parameters
    rw [returns_get.bind_iff, hargs]
    split_ifs with hmain
    · exact Run.returns_pure.2 ⟨rfl, rfl⟩
    · exact Run.returns_pure.2 ⟨rfl, rfl⟩
  unfold generatePrologue
  rw [(getFunction_of_find hk).bind_iff, returns_modify.bind_iff, returns_createBlock.bind_iff]
  rw [returns_setInsertPoint.bind_iff, returns_modify.bind_iff]
  exact hnames.bind_iff

theorem Llvm.Module.lt_of_find {m : Module} {name : String} {k : ℕ} (h : m.find name = some k) :
    k < m.functions.length :=
  (List.findIdx?_eq_some_iff_getElem.1 h).1

theorem Llvm.Between.find (h : Between d U s s') (name : String) :
    s'.module.find name = s.module.find name := by
  rw [h.module, Module.find_shift]

theorem Llvm.Between.parameters (h : Between d U s s') {f : ASTFunction} (hf : U.functions f.name)
    (k : ℕ) : s'.parameters f k = s.parameters f k := by
  unfold CodegenState.parameters
  rw [h.formalNames f.name hf, h.module, Module.args_shift]

/-- What the function calls. -/
def ASTFunction.codeEvents (f : ASTFunction) : List VisitEvent :=
  ASTStmt.acceptList f.body ++ f.ret.accept

/-- The code of a declared function follows itself, from between two functions to between two. -/
theorem ASTFunction.relates_generate {f : ASTFunction} {k : ℕ} (h : Between d U s s')
    (hk : s.module.find (llvmName f.name) = some k) (hf : U.functions f.name)
    (hdecls : U.total → ∀ st ∈ f.declarations, st.vars ≠ []) {names : String → Prop}
    (hfit : Fit (U.naming names) f.codeEvents)
    (hresolves : U.total → ∀ t, Run.Returns f.generatePrologue s () t → ∀ x, names x →
      (t.namedValues x).isSome ∨ (t.functionIndex x).isSome) :
    Run.Relates U.total f.generate f.generate s s' fun _ t _ t' ↦
      Between d U t t' ∧ Grows U s t ∧ ∀ x, CallsIn f.codeEvents x → t.CallsRuntime x := by
  -- No variable is looked up before all are bound.
  have hprologue : Run.Relates U.total f.generatePrologue f.generatePrologue s s' fun _ t _ t' ↦
      Ahead d (U.naming fun _ ↦ False) 1 t t' ∧ Grows U s t := by
    refine Run.Relates.of_iff (fun _ _ ↦ returns_generatePrologue hk)
      (fun _ _ ↦ returns_generatePrologue ((h.find _).trans hk)) ?_
    rw [h.parameters hf k]
    have hnaming : Between d (U.naming fun _ ↦ False) s s' := h.naming
    have henter := hnaming.enter (Module.lt_of_find hk) fun _ ↦ id
    refine (follows_bindAll (U := U.naming fun _ ↦ False) hdecls _ _ _ henter).mono ?_
    rintro _ t _ t' ⟨-, hahead, hgrows, -⟩
    exact ⟨hahead, (Grows.enter s k).trans hgrows.of_naming⟩
  unfold generate
  refine hprologue.and_returns.bind ?_
  rintro _ t _ t' ⟨hrun, hahead, hgrows⟩
  have hnamed : Ahead d (U.naming names) 1 t t' :=
    { hahead with
      linked := fun hfresh ↦ (hahead.linked hfresh).of_naming.naming
      resolves := fun htotal ↦ hresolves htotal t hrun }
  obtain ⟨hbody, hret⟩ := hfit.of_append
  refine (((ASTStmt.follows_generateList f.body hbody).bind fun _ ↦
    (f.ret.arg.follows_generate hret.of_visiting.2).last fun argVal ↦
      follows_emitUnit (.ret argVal)) t t' hnamed).mono ?_
  rintro _ u _ u' ⟨-, hu, hgrows', hX⟩
  refine ⟨hu.toBetween.of_naming, hgrows.trans hgrows'.of_naming, fun x hx ↦ hX x ?_⟩
  unfold codeEvents at hx
  rw [callsIn_append] at hx
  refine hx.imp_right fun hx ↦ ?_
  rw [ASTReturnStmt.accept, callsIn_visiting] at hx
  exact hx.resolve_left fun h ↦ by cases h

theorem Llvm.Module.find_eq_signatures (m : Module) (name : String) :
    m.find name = m.signatures.findIdx? fun f ↦ f.1 = name := by
  unfold find signatures
  rw [List.findIdx?_map]
  rfl

/-- New functions come behind those that are there. -/
theorem Llvm.Grows.find {t : CodegenState} (h : Grows U s t) {name : String} {k : ℕ}
    (hk : s.module.find name = some k) : t.module.find name = some k := by
  obtain ⟨new, hnew⟩ := h.signatures
  rw [Module.find_eq_signatures] at hk ⊢
  rw [← hnew, List.findIdx?_append, hk]
  rfl

/-- Functions that are declared follow themselves, one after the other. -/
theorem relates_functions {fs : List ASTFunction} (h : Between d U s s')
    (hfind : ∀ f ∈ fs, (s.module.find (llvmName f.name)).isSome)
    (hfunctions : ∀ f ∈ fs, U.functions f.name)
    (hdecls : U.total → ∀ f ∈ fs, ∀ st ∈ f.declarations, st.vars ≠ [])
    {names : ASTFunction → String → Prop}
    (hfit : ∀ f ∈ fs, Fit (U.naming (names f)) f.codeEvents)
    (hresolves : U.total → ∀ f ∈ fs, ∀ t, Grows U s t →
      ∀ u, Run.Returns f.generatePrologue t () u → ∀ x, names f x →
        (u.namedValues x).isSome ∨ (u.functionIndex x).isSome) :
    Run.Relates U.total (fs.forM ASTFunction.generate)
      (fs.forM ASTFunction.generate) s s' fun _ t _ t' ↦
        Between d U t t' ∧ Grows U s t ∧
          ∀ f ∈ fs, ∀ x, CallsIn f.codeEvents x → t.CallsRuntime x := by
  refine Run.relates_forM (fun (done : List ASTFunction) t t' ↦ Between d U t t' ∧ Grows U s t ∧
    ∀ f ∈ done, ∀ x, CallsIn f.codeEvents x → t.CallsRuntime x) (d := [])
    ⟨h, Grows.refl s, fun _ hf ↦ (nomatch hf)⟩ ?_
  rintro f hf done t t' ⟨hbetween, hgrows, hdone⟩
  obtain ⟨k, hk⟩ := Option.isSome_iff_exists.1 (hfind f hf)
  refine (ASTFunction.relates_generate hbetween (hgrows.find hk) (hfunctions f hf)
    (fun htotal ↦ hdecls htotal f hf) (hfit f hf)
    fun htotal ↦ hresolves htotal f hf t hgrows).mono ?_
  rintro _ u _ u' ⟨hbetween', hgrows', hcalls⟩
  refine ⟨hbetween', hgrows.trans hgrows', fun g hg x hx ↦ ?_⟩
  rcases List.mem_append.1 hg with hg | hg
  · exact hgrows'.callsRuntime (hdone g hg x hx)
  · rw [List.mem_singleton.1 hg] at hx
    exact hcalls x hx

/-! ### The declarations -/

theorem Llvm.CodegenState.insert_shift (hmodule : s'.module = s.module.shift d)
    (hnextId : s'.nextId = s.nextId + d.ids) (hfunction : s'.insertFunction = s.insertFunction)
    (hblock : s'.insertBlock = s.insertBlock) (i : Instruction) :
    (s'.insert (shift d i)).module = (s.insert i).module.shift d := by
  unfold insert
  rw [hmodule, hfunction, hblock]
  refine (s.module.modifyBlock_shift d (fun b ↦ ?_) _ _).symm
  unfold Block.shift
  rw [List.map_append, List.map_singleton, shiftEntry, hnextId]

theorem Llvm.CodegenState.undefinedMain_shift (hmodule : s'.module = s.module.shift d)
    (hnextId : s'.nextId = s.nextId + d.ids) (hserial : s'.serial = s.serial + d.modules) :
    s'.undefinedMain.module = s.undefinedMain.module.shift d := by
  have hlength : s'.module.functions.length = s.module.functions.length := by
    rw [hmodule]
    exact List.length_map _
  have hentry : s'.undefinedEntry.module = s.undefinedEntry.module.shift d := by
    unfold undefinedEntry
    rw [hlength, hmodule, Module.create_shift, Module.addBlock_shift, Module.create_shift]
  have hcall : Instruction.call (.function s'.undefinedRef) [] =
      shift d (.call (.function s.undefinedRef) []) := by
    unfold undefinedRef
    rw [hlength, hserial]
    rfl
  unfold undefinedMain
  rw [hcall]
  refine insert_shift (insert_shift hentry hnextId hlength rfl _) ?_ hlength rfl (.ret (.const 0))
  change s'.nextId + 1 = s.nextId + 1 + d.ids
  omega

/-- What earlier compilations left behind is alike where the program looks. -/
structure ASTProgram.Alike (d : Offset) (calls : RuntimeFunction → Prop) (p : ASTProgram)
    (s s' : CodegenState) : Prop where
  nextId : s'.nextId = s.nextId + d.ids
  serial : s'.serial = s.serial + d.modules
  lValueGen : s'.lValueGen = s.lValueGen
  allocFlag : s.allocFlag = false
  allocFlag' : s'.allocFlag = false
  intrinsics : ∀ i, calls (.intrinsic i) → s'.intrinsics i = shift d (s.intrinsics i)
  functionIndex : ∀ x k, s.functionIndex x = some k → s'.functionIndex x = some k
  fieldIndex : ∀ f k, s.fieldIndex f = some k → s'.fieldIndex f = some k
  main : "main" ∈ p.functions.map ASTFunction.name ∨
    (s'.functionIndex "main").isNone = (s.functionIndex "main").isNone
  numTIPArgs : (argCount p.functions).isSome ∨ s'.numTIPArgs = s.numTIPArgs

theorem Llvm.CodegenState.withMain_shift (hmodule : s'.module = s.module.shift d)
    (hnextId : s'.nextId = s.nextId + d.ids) (hserial : s'.serial = s.serial + d.modules)
    (hmain : (s'.functionIndex "main").isNone = (s.functionIndex "main").isNone) :
    s'.withMain.module = s.withMain.module.shift d ∧
      s'.withMain.nextId = s.withMain.nextId + d.ids := by
  unfold withMain
  rw [hmain]
  split_ifs
  · refine ⟨undefinedMain_shift hmodule hnextId hserial, ?_⟩
    change s'.nextId + 1 + 1 = s.nextId + 1 + 1 + d.ids
    omega
  · exact ⟨hmodule, hnextId⟩

theorem declarations_shift (fs : List ASTFunction) :
    (declarations fs).map (Llvm.Function.shift d) = declarations fs := by
  induction fs using List.reverseRecOn with
  | nil => rfl
  | append_singleton fs f ih =>
    rw [declarations_append]
    unfold addDeclaration
    split_ifs
    · exact ih
    · rw [List.map_append, ih]
      rfl

/-- The last number of a field counts, and the number it has already, if it is none of the fields. -/
theorem Llvm.CodegenState.fieldIndex_addFields (fields : List String) (s : CodegenState) (f : String) :
    (s.addFields fields).fieldIndex f = (fields.zipIdx.reverse.lookup f).or (s.fieldIndex f) := by
  unfold addFields
  change (fields.zipIdx.foldl _ s).fieldIndex f = _
  generalize fields.zipIdx = l
  induction l generalizing s with
  | nil => rfl
  | cons a l ih =>
    rw [List.foldl_cons, ih, List.reverse_cons, List.lookup_append]
    rw [Option.or_assoc]
    congr 1
    obtain ⟨field, index⟩ := a
    by_cases hf : f = field
    · subst hf
      simp
    · have hne : (f == field) = false := by simpa using hf
      simp [hf, List.lookup_cons, hne]

theorem Llvm.CodegenState.isSome_fieldIndex_addFields {fields : List String} {f : String}
    (hf : f ∈ fields) (s : CodegenState) : ((s.addFields fields).fieldIndex f).isSome := by
  have hmem : f ∈ fields.zipIdx.reverse.map Prod.fst := by
    rw [List.map_reverse, List.mem_reverse, List.zipIdx_map_fst]
    exact hf
  have hsome : (fields.zipIdx.reverse.lookup f).isSome := by
    rw [← Option.not_isNone, Bool.not_eq_true', ← Bool.not_eq_true, lookup_isNone_iff]
    exact not_not_intro hmem
  rw [fieldIndex_addFields, Option.isSome_or, hsome, Bool.true_or]

variable {p : ASTProgram}

theorem ASTProgram.Alike.tables (h : p.Alike d U.calls s s')
    (hnodup : (p.functions.map ASTFunction.name).Nodup) :
    (∀ x k, (p.tables s).functionIndex x = some k → (p.tables s').functionIndex x = some k) ∧
      ((p.tables s').functionIndex "main").isNone = ((p.tables s).functionIndex "main").isNone ∧
      ∀ f ∈ p.functions, (p.tables s').functionFormalNames f.name =
        (p.tables s).functionFormalNames f.name := by
  unfold ASTProgram.tables
  obtain ⟨hin, hout⟩ := CodegenState.addFunctions_spec hnodup
    { s with
      serial := s.serial + 1
      module := ⟨[nopDeclaration], [], 0⟩
      nop := some ⟨s.serial + 1, 0, .void⟩ }
  obtain ⟨hin', hout'⟩ := CodegenState.addFunctions_spec hnodup
    { s' with
      serial := s'.serial + 1
      module := ⟨[nopDeclaration], [], 0⟩
      nop := some ⟨s'.serial + 1, 0, .void⟩ }
  have hmem : ∀ f ∈ p.functions, ∃ k, p.functions[k]? = some f := fun f hf ↦ List.getElem?_of_mem hf
  refine ⟨fun x k hk ↦ ?_, ?_, fun f hf ↦ ?_⟩
  · by_cases hx : x ∈ p.functions.map ASTFunction.name
    · obtain ⟨f, hf, rfl⟩ := List.mem_map.1 hx
      obtain ⟨j, hj⟩ := hmem f hf
      rw [(hin j f hj).1] at hk
      rw [(hin' j f hj).1, hk]
    · rw [hout x hx] at hk
      rw [hout' x hx]
      exact h.functionIndex x k hk
  · by_cases hx : "main" ∈ p.functions.map ASTFunction.name
    · obtain ⟨f, hf, hname⟩ := List.mem_map.1 hx
      obtain ⟨j, hj⟩ := hmem f hf
      rw [← hname, (hin j f hj).1, (hin' j f hj).1]
    · rw [hout _ hx, hout' _ hx]
      exact h.main.resolve_left hx
  · obtain ⟨j, hj⟩ := hmem f hf
    rw [(hin j f hj).2, (hin' j f hj).2]

/-- From states that are alike, the declarations end in states that are related. -/
theorem ASTProgram.between_declared (h : p.Alike d U.calls s s')
    (hnodup : (p.functions.map ASTFunction.name).Nodup) {fields : List String}
    (hfunctions : ∀ x, U.functions x → x ∈ p.functions.map ASTFunction.name)
    (hfields : ∀ f, U.fields f → f ∈ fields) (hlinked : U.fresh → Linked U (p.declared fields s)) :
    Between d U (p.declared fields s) (p.declared fields s') := by
  obtain ⟨hindex, hisNone, hformals⟩ := h.tables hnodup
  have hserial : s'.serial + 1 = s.serial + 1 + d.modules := by
    have hold := h.serial
    omega
  have hnum : (p.dispatching s').numTIPArgs = (p.dispatching s).numTIPArgs := by
    change (argCount p.functions).getD _ = (argCount p.functions).getD _
    rcases h.numTIPArgs with hsome | heq
    · obtain ⟨n, hn⟩ := Option.isSome_iff_exists.1 hsome
      rw [hn]
      rfl
    · rw [heq]
  have hdispatching : (p.dispatching s').module = (p.dispatching s).module.shift d := by
    change Llvm.Module.mk _ _ 0 = Llvm.Module.mk ((declarations p.functions).map _) (List.map (shift d) _) 0
    rw [declarations_shift, hserial]
    refine congrArg (Llvm.Module.mk _ · 0) ?_
    change _ = (p.functions.map _).map (shift d)
    rw [List.map_map]
    rfl
  obtain ⟨hmodule, hnextId⟩ := CodegenState.withMain_shift hdispatching (by simpa using h.nextId)
    (by simpa using hserial) (by simpa using hisNone)
  obtain ⟨hmodule₁, hnextId₁, hcalloc₁⟩ := p.declared_module fields s
  obtain ⟨hmodule₂, hnextId₂, hcalloc₂⟩ := p.declared_module fields s'
  have hframe := p.declared_frame fields s
  have hframe' := p.declared_frame fields s'
  have hwith : (p.declared fields s').module = (p.declared fields s).module.shift d := by
    have hcreate := Module.create_shift d
      { (p.dispatching s).withMain.module with numInputs := (p.dispatching s).numTIPArgs }
      "calloc" [] .pointer
    rw [hmodule₁, hmodule₂]
    unfold CodegenState.withCalloc
    rw [CodegenState.withMain_numTIPArgs, CodegenState.withMain_numTIPArgs, hmodule, hnum]
    exact hcreate.symm
  have hcalloc : (p.declared fields s').calloc = shift d (p.declared fields s).calloc := by
    rw [hcalloc₁, hcalloc₂]
    unfold CodegenState.withCalloc
    rw [CodegenState.withMain_serial, CodegenState.withMain_serial, dispatching_serial,
      dispatching_serial, hmodule, hserial]
    change some (FunctionRef.mk _ (List.map _ _).length _) = some _
    rw [List.length_map]
    rfl
  have hfield : ∀ f k, (p.declared fields s).fieldIndex f = some k →
      (p.declared fields s').fieldIndex f = some k := by
    intro f k
    unfold declared
    rw [CodegenState.fieldIndex_addFields, CodegenState.fieldIndex_addFields]
    unfold CodegenState.withCalloc
    rw [CodegenState.withMain_fieldIndex, CodegenState.withMain_fieldIndex, dispatching_fieldIndex,
      dispatching_fieldIndex]
    intro hk
    rcases Option.or_eq_some_iff.1 hk with hk | ⟨hnone, hk⟩
    · rw [hk]
      rfl
    · rw [hnone]
      exact h.fieldIndex f k hk
  exact {
    module := hwith
    nextId := by rw [hnextId₁, hnextId₂, hnextId]
    serial := by
      rw [hframe, hframe']
      exact hserial
    lValueGen := by
      rw [hframe, hframe']
      exact h.lValueGen
    allocFlag := by
      rw [hframe, hframe']
      exact h.allocFlag'.trans h.allocFlag.symm
    recordFields := by
      rw [hframe, hframe']
    nop := by
      rw [hframe, hframe']
      change some _ = some _
      rw [hserial]
      rfl
    calloc := hcalloc
    intrinsics := by
      rw [hframe, hframe']
      exact h.intrinsics
    functionIndex := by
      rw [hframe, hframe']
      exact hindex
    formalNames := fun x hx ↦ by
      obtain ⟨f, hf, rfl⟩ := List.mem_map.1 (hfunctions x hx)
      rw [hframe, hframe']
      exact hformals f hf
    fieldIndex := hfield
    fields := fun f hf ↦ CodegenState.isSome_fieldIndex_addFields (hfields f hf) _
    hasNop := by
      rw [hframe]
      rfl
    hasCalloc := by
      rw [hcalloc₁]
      rfl
    allocates := fun halloc ↦ by
      rw [hframe] at halloc
      cases h.allocFlag.symm.trans halloc
    linked := hlinked }

/-! ### The declared functions -/

/-- The names of the functions after `_tip_main` is made sure of. -/
theorem Llvm.CodegenState.signatures_undefinedMain (s : CodegenState) :
    s.undefinedMain.module.signatures =
      s.module.signatures ++ [(s.module.freshName "_tip_main", [])] ++
        [(((s.module.create "_tip_main" [] .int).addBlock s.module.functions.length).freshName
          "_tip_main_undefined", [])] := by
  unfold undefinedMain
  refine (Module.signatures_modifyBlock _ _ _ _).trans ((Module.signatures_modifyBlock _ _ _ _).trans ?_)
  unfold undefinedEntry
  rw [Module.signatures_create, Module.signatures_addBlock, Module.signatures_create]

theorem ASTProgram.signatures_declared (p : ASTProgram) (fields : List String) (s : CodegenState) :
    (p.dispatching s).module.signatures <+: (p.declared fields s).module.signatures := by
  have hmain : (p.dispatching s).module.signatures <+:
      (p.dispatching s).withMain.module.signatures := by
    unfold CodegenState.withMain
    split_ifs
    · rw [CodegenState.signatures_undefinedMain, List.append_assoc]
      exact List.prefix_append _ _
    · exact List.prefix_refl _
  rw [(p.declared_module fields s).1]
  refine hmain.trans ?_
  unfold CodegenState.withCalloc
  rw [Module.signatures_create]
  exact List.prefix_append _ _

/-- The functions of the program are where they were declared. -/
theorem ASTProgram.find_declared {f : ASTFunction} (hf : f ∈ p.functions) (fields : List String)
    (s : CodegenState) : (p.declared fields s).module.find (llvmName f.name) =
      some (place (declarations p.functions) f.name) := by
  have hfind : (p.dispatching s).module.find (llvmName f.name) =
      some (place (declarations p.functions) f.name) := Module.find_eq_place (declared_mem hf)
  obtain ⟨new, hnew⟩ := p.signatures_declared fields s
  rw [Module.find_eq_signatures] at hfind ⊢
  rw [← hnew, List.findIdx?_append, hfind]
  rfl

theorem ASTFunction.codeEvents_subset (f : ASTFunction) : f.codeEvents ⊆ f.accept := by
  intro e he
  unfold codeEvents at he
  unfold accept visiting
  rw [List.mem_append] at he
  simp only [List.mem_append, List.mem_cons]
  tauto

/-! ### Programs -/

/-- The code of the program calls the function of the runtime. -/
def ASTProgram.CallsRuntime (p : ASTProgram) (x : RuntimeFunction) : Prop :=
  x = .undefinedMain ∧ "main" ∉ p.functions.map ASTFunction.name ∨
    ∃ f ∈ p.functions, CallsIn f.codeEvents x

instance (p : ASTProgram) (x : RuntimeFunction) : Decidable (p.CallsRuntime x) :=
  inferInstanceAs (Decidable (_ ∨ _))

/-- What the code of the program may look up and call. -/
def ASTProgram.codeUses (p : ASTProgram) (fields : List String) (undefinedMain : FunctionRef → Prop)
    (total fresh : Prop) : CodeUses where
  names _ := False
  fields f := f ∈ fields
  calls := p.CallsRuntime
  functions x := x ∈ p.functions.map ASTFunction.name
  undefinedMain := undefinedMain
  total := total
  fresh := fresh

/-- The fields that the code of a program looks up are in the list. -/
def ASTProgram.KnowsFields (p : ASTProgram) (fields : List String) : Prop :=
  ∀ f ∈ p.functions, ∀ n, .endVisit n ∈ f.codeEvents → ∀ field, n.field = some field → field ∈ fields

section Programs

variable {fields : List String} {undefinedMain : FunctionRef → Prop} {total fresh : Prop}
  (h : p.Alike d p.CallsRuntime s s') (hnodup : (p.functions.map ASTFunction.name).Nodup)
  (hfields : p.KnowsFields fields)
  (hlinked : fresh → Linked (p.codeUses fields undefinedMain total fresh) (p.declared fields s))
  (hdecls : total → ∀ f ∈ p.functions, ∀ st ∈ f.declarations, st.vars ≠ [])
  (hresolves : total → ∀ f ∈ p.functions, ∀ t,
    Grows (p.codeUses fields undefinedMain total fresh) (p.declared fields s) t →
      ∀ u, Run.Returns f.generatePrologue t () u → ∀ x, f.Uses x →
        (u.namedValues x).isSome ∨ (u.functionIndex x).isSome)

include h hnodup hfields hlinked hdecls hresolves

/-- The functions of a program follow themselves from states that are alike. -/
theorem ASTProgram.relates_declared {fs : List ASTFunction} (hfs : fs ⊆ p.functions) :
    Run.Relates total (fs.forM ASTFunction.generate) (fs.forM ASTFunction.generate)
      (p.declared fields s) (p.declared fields s') fun _ t _ t' ↦
        Between d (p.codeUses fields undefinedMain total fresh) t t' ∧
          Grows (p.codeUses fields undefinedMain total fresh) (p.declared fields s) t ∧
            ∀ f ∈ fs, ∀ x, CallsIn f.codeEvents x → t.CallsRuntime x := by
  have hfit : ∀ f ∈ p.functions,
      Fit ((p.codeUses fields undefinedMain total fresh).naming f.Uses) f.codeEvents := fun f hf n hn ↦
    { names := fun x hx _ ↦ by
        unfold ASTNode.variable' at hx
        split at hx
        · cases hx
          exact ⟨_, f.codeEvents_subset hn⟩
        · cases hx
      fields := hfields f hf n hn
      calls := fun x hx ↦ Or.inr ⟨f, hf, n, hn, hx⟩ }
  refine relates_functions (between_declared h hnodup (fun _ ↦ id) (fun _ ↦ id) hlinked)
    (fun f hf ↦ ?_) (fun f hf ↦ List.mem_map_of_mem (hfs hf))
    (fun htotal f hf ↦ hdecls htotal f (hfs hf)) (fun f hf ↦ hfit f (hfs hf))
    fun htotal f hf ↦ hresolves htotal f (hfs hf)
  rw [find_declared (hfs hf)]
  rfl

/-- The code of a program follows itself from states that are alike. -/
theorem ASTProgram.relates_codegen :
    Run.Relates total (p.codegen fields) (p.codegen fields) s s' fun m t m' t' ↦
      m = t.module ∧ m' = t'.module ∧ Between d (p.codeUses fields undefinedMain total fresh) t t' ∧
        Grows (p.codeUses fields undefinedMain total fresh) (p.declared fields s) t ∧
          ∀ f ∈ p.functions, ∀ x, CallsIn f.codeEvents x → t.CallsRuntime x := by
  unfold codegen
  refine Run.Relates.of_iff (fun _ _ ↦ (p.returns_declareFunctions hnodup fields s).bind_iff)
    (fun _ _ ↦ (p.returns_declareFunctions hnodup fields s').bind_iff) ?_
  refine (relates_declared h hnodup hfields hlinked hdecls hresolves
    (List.Subset.refl _)).bind ?_
  rintro _ t _ t' ⟨ht, hgrows, hcalls⟩
  exact Run.Relates.of_returns (returns_get.bind_iff.2 (Run.returns_pure.2 ⟨rfl, rfl⟩))
    (returns_get.bind_iff.2 (Run.returns_pure.2 ⟨rfl, rfl⟩)) ⟨rfl, rfl, ht, hgrows, hcalls⟩

end Programs

end Functions

end Sipc
