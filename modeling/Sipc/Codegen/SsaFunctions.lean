import Sipc.Codegen.Compilations
import Sipc.Codegen.SsaStatements

/-!
# Every function is in static single assignment form

A function starts in an entry block of its own, with the allocas of its names in front of block 0
(`Llvm.Opening`), and ends with a `ret`. Between two functions all code is complete
(`Llvm.AllCompleted`). So every function of a module that `ASTProgram::codegen` returns passes the
verifier, from whatever state the code generator starts (`ASTProgram.isSsa_of_codegen`).
-/

set_option autoImplicit false
set_option relaxedAutoImplicit false

namespace Sipc

open Llvm Library

namespace Llvm

/-! ### Between functions -/

/-- All functions are complete, and the numbers of their instructions are used up. -/
structure AllCompleted (s : CodegenState) : Prop where
  completed : ∀ f ∈ s.module.functions, f.Completed
  ids : ∀ f ∈ s.module.functions, ∀ x ∈ f.blocks.flatten, x.1 < s.nextId

section AllCompleted

variable {s s' : CodegenState} {f : Function} {args : ℕ} {d : CodeDraft}

theorem AllCompleted.congr (h : AllCompleted s) (hmodule : s'.module.functions = s.module.functions)
    (hnext : s'.nextId = s.nextId) : AllCompleted s' := by
  constructor
  · rw [hmodule]
    exact h.completed
  · rw [hmodule, hnext]
    exact h.ids

theorem AllCompleted.create (h : AllCompleted s) (name : String) (params : List String) (r : Kind) :
    AllCompleted (s.create name params r) := by
  constructor
  · intro g hg
    rcases List.mem_append.1 hg with hg | hg
    · exact h.completed g hg
    · rw [List.mem_singleton.1 hg]
      exact Function.completed_of_nil rfl
  · intro g hg x hx
    rcases List.mem_append.1 hg with hg | hg
    · exact h.ids g hg x hx
    · rw [List.mem_singleton.1 hg] at hx
      cases hx

theorem preserves_createFunction (name : String) (params : List String) (r : Kind) :
    Run.Preserves (createFunction name params r) AllCompleted :=
  Run.preserves_access fun _ h ↦ h.create name params r

theorem preserves_modify {g : CodegenState → CodegenState}
    (h : ∀ s, (g s).module.functions = s.module.functions ∧ (g s).nextId = s.nextId) :
    Run.Preserves (modify g) AllCompleted :=
  Run.preserves_access fun s hs ↦ hs.congr (h s).1 (h s).2

/-- The function that is found or created is there. -/
theorem AllCompleted.getFunction (h : AllCompleted s) {name : String} {r : FunctionRef}
    (hreturns : Run.Returns (getFunction name) s r s') :
    AllCompleted s' ∧ r.index < s'.module.functions.length := by
  cases hfind : s.module.find (llvmName name) with
  | some k =>
    obtain ⟨rfl, rfl⟩ := (getFunction_of_find hfind).unique hreturns
    exact ⟨h, (List.findIdx?_eq_some_iff_getElem.1 hfind).1⟩
  | none =>
    obtain ⟨rfl, rfl⟩ := (getFunction_of_not_find hfind).unique hreturns
    refine ⟨AllCompleted.create ?_ _ _ _, ?_⟩
    · exact h.congr rfl rfl
    · change s.module.functions.length < (s.module.functions ++ [_]).length
      rw [List.length_append]
      exact Nat.lt_succ_self _

theorem preserves_getFunction (name : String) : Run.Preserves (getFunction name) AllCompleted :=
  fun _ _ _ h hreturns ↦ (h.getFunction hreturns).1

/-! ### The end of a function -/

/-- A `ret` completes the function. -/
theorem AllCompleted.of_ret (hs : Shows args d s) (hsound : d.Sound args) (hopen : d.isOpen = true)
    (hstatuses : ∀ l, d.status l = .sealed) {v : Operand} (hv : v ∈ d.out args) :
    AllCompleted (s.insert (.ret v)) := by
  have hs' := hs.insert (hsound.current_lt hopen).1 (.ret v)
  have hsound' : Draft.Sound instructionSet (givenOperands args)
      (d.write instructionSet (s.nextId, .ret v)) := by
    refine Draft.Sound.write hsound hopen ⟨?_, hs.fresh _, ?_, ?_⟩
    · exact List.forall_mem_singleton.2 hv
    · exact List.forall_mem_nil _
    · exact fun hphi ↦ Bool.noConfusion hphi
  obtain ⟨f, hf, hblocks, hargs⟩ := hs'.function
  have hcompleted : f.Completed := by
    refine ⟨d.write instructionSet (s.nextId, .ret v), by rwa [hargs], ?_, hstatuses, hblocks.symm⟩
    change (d.isOpen && false) = false
    exact Bool.and_false _
  constructor
  · intro g hg
    obtain ⟨k, hk⟩ := List.mem_iff_getElem?.1 hg
    by_cases hkf : k = s.insertFunction
    · subst hkf
      obtain rfl := Option.some.inj (hf.symm.trans hk)
      exact hcompleted
    · exact hs'.others k g hkf hk
  · intro g hg
    obtain ⟨k, hk⟩ := List.mem_iff_getElem?.1 hg
    exact hs'.ids k g hk

/-! ### The start of a function -/

/-- The draft is at the start of a function with that many arguments. -/
structure Opening (args : ℕ) (d : CodeDraft) : Prop where
  sound : d.Sound args
  isOpen : d.isOpen = true
  statuses : ∀ l, d.status l = .sealed
  /-- The block comes after the allocas, or nothing jumps to it. -/
  entry : d.current = 0 ∨ d.available d.current = Set.univ

/-- The code generator is at the start of a function with that many arguments. -/
def AtStart (args : ℕ) (s : CodegenState) : Prop :=
  ∃ d, Shows args d s ∧ Opening args d

/-- A function that is complete gets another entry block. -/
theorem AllCompleted.enter (h : AllCompleted s) (hf : s.module.functions[s.insertFunction]? = some f) :
    AtStart f.args.length
      { s with
        module := s.module.addBlock s.insertFunction
        insertBlock := f.blocks.length
        namedValues := fun _ ↦ none } := by
  obtain ⟨d, hsound, hopen, hstatuses, hblocks⟩ := h.completed f (List.mem_of_getElem? hf)
  have hs : Shows f.args.length d { s with insertBlock := d.current, namedValues := fun _ ↦ none } :=
    ⟨⟨f, hf, hblocks.symm, rfl⟩, rfl, fun k g hk ↦ h.ids g (List.mem_of_getElem? hk),
      fun _ a ha ↦ (Option.some_ne_none a ha.symm).elim, fun k g _ hk ↦ h.completed g (List.mem_of_getElem? hk)⟩
  refine ⟨d.enter, hs.change (fun bs ↦ bs ++ [[]]) rfl rfl rfl (by rw [← hblocks]; rfl) le_rfl ?_
    fun _ a ha ↦ (Option.some_ne_none a ha.symm).elim, hsound.enter hopen hstatuses, rfl, hstatuses, ?_⟩
  · intro x hx
    refine .inl ?_
    simpa [Draft.enter] using hx
  · by_cases hlen : d.blocks.length = 0
    · exact .inl hlen
    · refine .inr ?_
      change Function.update d.available d.blocks.length {_v | d.blocks.length ≠ 0} d.blocks.length = _
      rw [Function.update_self]
      exact Set.eq_univ_of_forall fun _ ↦ hlen

/-- An alloca is put in front of block 0. -/
theorem Shows.alloca (hs : Shows args d s) (hd : Opening args d) :
    let d' : CodeDraft := d.prepend instructionSet (s.nextId, .alloca .int)
    Shows args d' s.insertEntryAlloca ∧ Opening args d' := by
  have hpos := Nat.zero_lt_of_lt (hd.sound.current_lt hd.isOpen).1
  have hsound := Draft.Sound.prepend hd.sound hd.isOpen hd.statuses hd.entry
    (x := (s.nextId, .alloca .int)) rfl (hs.fresh _)
  refine ⟨?_, hsound, hd.isOpen, hd.statuses, hd.entry⟩
  refine hs.change (fun bs ↦ bs.modify 0 fun b ↦ (s.nextId, .alloca .int) :: b) rfl rfl rfl hs.current
    (Nat.le_succ _) ?_ fun name a ha ↦ .inr (hs.named name a ha)
  intro x hx
  have hperm := perm_flatten_modify (x := (s.nextId, Instruction.alloca .int))
    (fun b ↦ List.Perm.refl _) hpos
  rcases List.mem_cons.1 (hperm.mem_iff.1 hx) with rfl | hx
  · exact .inr (Nat.lt_succ_self _)
  · exact .inl hx

/-- A plain instruction leaves the generator at the start of the function. -/
theorem Shows.opening (hs : Shows args d s) (hd : Opening args d) {i : Instruction} {vs : List Operand}
    (hrole : i.role = .plain vs) (hvs : ∀ v ∈ vs, v ∈ d.out args) :
    let d' : CodeDraft := d.write instructionSet (s.nextId, i)
    Shows args d' (s.insert i) ∧ Opening args d' ∧ d.out args ⊆ d'.out args ∧
      .result s.nextId i.kind ∈ d'.out args := by
  obtain ⟨hs', hsound, hext, hmem⟩ :=
    hs.plain hd.sound hd.isOpen subset_rfl hrole fun v hv ↦ .inl (hvs v hv)
  exact ⟨hs', ⟨hsound, hext.isOpen, hd.statuses, hd.entry⟩, hext.out, hmem⟩

/-- A name is bound to an alloca of the function. -/
theorem Shows.bind (hs : Shows args d s) {name : String} {a : Alloca} (ha : a.operand ∈ d.kept) :
    Shows args d { s with namedValues := Function.update s.namedValues name (some a) } := by
  refine ⟨hs.function, hs.current, hs.ids, fun x c hc ↦ ?_, hs.others⟩
  by_cases hx : x = name
  · subst hx
    change Function.update s.namedValues x (some a) x = some c at hc
    rw [Function.update_self] at hc
    obtain rfl := Option.some.inj hc
    exact ha
  · change Function.update s.namedValues name (some a) x = some c at hc
    rw [Function.update_of_ne hx] at hc
    exact hs.named x c hc

end AllCompleted

end Llvm

/-! ### Prologues -/

section Prologue

variable {args : ℕ} {s s' : CodegenState}

theorem returns_createEntryBlockAlloca {origin : Origin} :
    Run.Returns (createEntryBlockAlloca origin) s ⟨s.nextId, origin⟩ s.insertEntryAlloca :=
  Run.returns_access.2 rfl

theorem atStart_generateLocal (d : ASTDeclNode) : Run.Preserves d.generateLocal (AtStart args) := by
  rintro s u s' ⟨dr, hs, hd⟩ hreturns
  unfold ASTDeclNode.generateLocal bindName at hreturns
  rw [returns_createEntryBlockAlloca.bind_iff, returns_emitUnit.bind_iff] at hreturns
  obtain rfl := (returns_modify.unique hreturns).2
  obtain ⟨hs₁, hd₁⟩ := hs.alloca hd
  have hkept := hd₁.sound.kept hd₁.isOpen
  obtain ⟨hs₂, hd₂, -, -⟩ := hs₁.opening hd₁ (i := .store (.const 0) (.result s.nextId .slot)) rfl
    (List.forall_mem_cons.2 ⟨Draft.subset_out (const_mem_given _ _),
      List.forall_mem_singleton.2 (hkept (.inl rfl))⟩)
  exact ⟨_, hs₂.bind (.inl rfl), hd₂⟩

theorem atStart_generateArg (name : String) {i : ℕ} (hi : i < args) :
    Run.Preserves (generateArg name i) (AtStart args) := by
  rintro s u s' ⟨dr, hs, hd⟩ hreturns
  unfold generateArg bindName at hreturns
  rw [returns_createEntryBlockAlloca.bind_iff, returns_emitUnit.bind_iff] at hreturns
  obtain rfl := (returns_modify.unique hreturns).2
  obtain ⟨hs₁, hd₁⟩ := hs.alloca hd
  have hkept := hd₁.sound.kept hd₁.isOpen
  have harg : Operand.arg i ∈ givenOperands args := hi
  obtain ⟨hs₂, hd₂, -, -⟩ := hs₁.opening hd₁ (i := .store (.arg i) (.result s.nextId .slot)) rfl
    (List.forall_mem_cons.2 ⟨Draft.subset_out harg, List.forall_mem_singleton.2 (hkept (.inl rfl))⟩)
  exact ⟨_, hs₂.bind (.inl rfl), hd₂⟩

/-- A formal of `main` is loaded from the input array. -/
theorem atStart_generateMainArg (name : String) (i : ℕ) :
    Run.Preserves (generateMainArg name i) (AtStart args) := by
  rintro s u s' ⟨dr, hs, hd⟩ hreturns
  unfold generateMainArg bindName at hreturns
  rw [returns_createEntryBlockAlloca.bind_iff, returns_emit.bind_iff, returns_emit.bind_iff,
    returns_emitUnit.bind_iff] at hreturns
  obtain rfl := (returns_modify.unique hreturns).2
  obtain ⟨hs₁, hd₁⟩ := hs.alloca hd
  have hkept := hd₁.sound.kept hd₁.isOpen
  obtain ⟨hs₂, hd₂, hout₂, hgep⟩ := hs₁.opening hd₁ (i := .inputPtr i) rfl (List.forall_mem_nil _)
  obtain ⟨hs₃, hd₃, hout₃, hval⟩ := hs₂.opening hd₂ (i := .load _) rfl
    (List.forall_mem_singleton.2 hgep)
  obtain ⟨hs₄, hd₄, -, -⟩ := hs₃.opening hd₃ (i := .store _ (.result s.nextId .slot)) rfl
    (List.forall_mem_cons.2 ⟨hval,
      List.forall_mem_singleton.2 (hout₃ (hout₂ (hkept (.inl rfl))))⟩)
  exact ⟨_, hs₄.bind (.inl rfl), hd₄⟩

theorem atStart_generateDecl (d : ASTDeclStmt) : Run.Preserves d.generate (AtStart args) := by
  unfold ASTDeclStmt.generate
  refine (Run.preserves_forM fun v _ ↦ atStart_generateLocal v).bind fun _ ↦ ?_
  split_ifs
  · exact fun _ _ _ _ hreturns ↦ absurd hreturns Run.not_returns_fail
  · exact Run.preserves_pure

/-- The allocas of the names, of which there are as many as arguments unless the function is `main`. -/
theorem atStart_names (f : ASTFunction) {names : List String}
    (hnames : f.name ≠ "main" → names.length = args) : Run.Preserves (do
      names.zipIdx.forM fun (name, i) ↦
        if f.name = "main" then generateMainArg name i else generateArg name i
      f.declarations.forM ASTDeclStmt.generate) (AtStart args) := by
  refine (Run.preserves_forM fun x hx ↦ ?_).bind fun _ ↦
    Run.preserves_forM fun d _ ↦ atStart_generateDecl d
  by_cases hmain : f.name = "main"
  · simp only [if_pos hmain]
    exact atStart_generateMainArg x.1 x.2
  · simp only [if_neg hmain]
    have hlt := (List.mem_zipIdx' hx).1
    rw [hnames hmain] at hlt
    exact atStart_generateArg x.1 hlt

/-- A block is made and the insertion point moves there. -/
theorem returns_enter {α : Type} {f : Llvm.Function} {m : Generate α} {a : α}
    (hf : s.module.functions[s.insertFunction]? = some f) : Run.Returns (do
      let entry ← createBlock
      setInsertPoint entry
      m) s a s' ↔
    Run.Returns m
      { s with module := s.module.addBlock s.insertFunction, insertBlock := f.blocks.length } a s' := by
  rw [returns_createBlock.bind_iff, returns_setInsertPoint.bind_iff, hf]
  rfl

/-- The part before the statements opens a function. -/
theorem Llvm.AllCompleted.prologue (h : AllCompleted s) (f : ASTFunction) {u : Unit}
    (hreturns : Run.Returns f.generatePrologue s u s') : ∃ args, AtStart args s' := by
  unfold ASTFunction.generatePrologue at hreturns
  obtain ⟨r, s₁, hfunction, hreturns⟩ := Run.returns_bind.1 hreturns
  obtain ⟨h₁, hlt⟩ := h.getFunction hfunction
  obtain ⟨g, hg⟩ : ∃ g, s₁.module.functions[r.index]? = some g := ⟨_, List.getElem?_eq_getElem hlt⟩
  have h₂ : AllCompleted { s₁ with insertFunction := r.index } := h₁.congr rfl rfl
  obtain ⟨d, hs, hd⟩ := h₂.enter hg
  obtain ⟨g', hg', -, hargs⟩ := hs.function
  refine ⟨g.args.length, ?_⟩
  unfold parameterNames at hreturns
  rw [returns_modify.bind_iff, returns_enter hg, returns_modify.bind_iff, bind_assoc,
    returns_get.bind_iff] at hreturns
  by_cases hmain : f.name = "main"
  · rw [if_pos hmain, pure_bind] at hreturns
    exact atStart_names f (fun hne ↦ absurd hmain hne) _ u s' ⟨d, hs, hd⟩ hreturns
  · rw [if_neg hmain, pure_bind] at hreturns
    refine atStart_names f (fun _ ↦ ?_) _ u s' ⟨d, hs, hd⟩ hreturns
    change (((s₁.module.addBlock r.index).functions[r.index]?.map Llvm.Function.args).getD []).length =
      g.args.length
    rw [hg']
    exact hargs

end Prologue

/-! ### Functions and programs -/

theorem ASTFunction.completes_generate (f : ASTFunction) : Run.Preserves f.generate AllCompleted := by
  intro s u s' h hreturns
  unfold ASTFunction.generate at hreturns
  obtain ⟨_, s₁, hprologue, hreturns⟩ := Run.returns_bind.1 hreturns
  obtain ⟨args, d₁, hs₁, hd₁⟩ := h.prologue f hprologue
  obtain ⟨_, s₂, hbody, hreturns⟩ := Run.returns_bind.1 hreturns
  obtain ⟨d₂, hs₂, hsound₂, hext₂, -⟩ := ASTStmt.emits_generateList f.body ∅ d₁ s₁ () s₂ hs₁ hd₁.sound
    hd₁.isOpen (Set.empty_subset _) hbody
  obtain ⟨argVal, s₃, hret, hreturns⟩ := Run.returns_bind.1 hreturns
  obtain ⟨d₃, hs₃, hsound₃, hext₃, hmem⟩ := f.ret.arg.emits_generate ∅ d₂ s₂ argVal s₃ hs₂ hsound₂
    hext₂.isOpen (Set.empty_subset _) hret
  obtain rfl := returns_emitUnit_iff.1 hreturns
  refine AllCompleted.of_ret hs₃ hsound₃ hext₃.isOpen (fun l ↦ ?_) (hmem rfl)
  rw [hext₃.statuses, hext₂.statuses]
  exact hd₁.statuses l

/-- The names that are bound do not matter in the `_tip_main` of a program without `main`. -/
theorem completes_generateUndefinedMain : Run.Preserves generateUndefinedMain AllCompleted := by
  intro s u s' h hreturns
  have hmain : (s.create "_tip_main" [] .int).module.functions[s.module.functions.length]? =
      some ⟨s.module.freshName "_tip_main", [], .int, []⟩ :=
    List.getElem?_concat_length
  unfold generateUndefinedMain at hreturns
  rw [returns_createFunction.bind_iff, returns_modify.bind_iff, returns_enter hmain,
    returns_createFunction.bind_iff, returns_emitUnit.bind_iff] at hreturns
  have h₁ : AllCompleted { s.create "_tip_main" [] .int with
      insertFunction := s.module.functions.length } := (h.create _ _ _).congr rfl rfl
  obtain ⟨d, hs, hd⟩ := h₁.enter hmain
  have hs₁ := hs.create "_tip_main_undefined" [] .void
  obtain ⟨hs₂, hd₂, -, -⟩ := hs₁.opening hd (i := .call (.function _) []) rfl (List.forall_mem_nil _)
  have h₃ := AllCompleted.of_ret hs₂ hd₂.sound hd₂.isOpen hd₂.statuses
    (v := .const 0) (Draft.subset_out (const_mem_given _ _))
  rw [← returns_emitUnit_iff.1 hreturns]
  exact h₃.congr rfl rfl

theorem completes_ensureMain : Run.Preserves ensureMain AllCompleted := by
  intro s u s' h hreturns
  unfold ensureMain at hreturns
  rw [returns_get.bind_iff] at hreturns
  split_ifs at hreturns
  · exact completes_generateUndefinedMain s u s' h hreturns
  · exact Run.preserves_pure s u s' h hreturns

/-- The declarations leave nothing to complete, whatever was there before. -/
theorem ASTProgram.allCompleted_of_declareFunctions {p : ASTProgram} {fields : List String}
    {s s' : CodegenState} {u : Unit} (hreturns : Run.Returns (p.declareFunctions fields) s u s') :
    AllCompleted s' := by
  unfold ASTProgram.declareFunctions at hreturns
  rw [returns_modify.bind_iff] at hreturns
  have h : AllCompleted { s with serial := s.serial + 1, module := Module.empty } :=
    ⟨List.forall_mem_nil _, List.forall_mem_nil _⟩
  refine (show Run.Preserves _ AllCompleted from ?_) _ u s' h hreturns
  refine (preserves_createFunction _ _ _).bind fun nop ↦ ?_
  refine Run.Preserves.bind (preserves_modify fun _ ↦ ⟨rfl, rfl⟩) fun _ ↦ ?_
  refine (preserves_modify fun s ↦ ⟨?_, ?_⟩).bind fun _ ↦ ?_
  · rw [CodegenState.addFunctions_frame]
  · rw [CodegenState.addFunctions_frame]
  refine (Run.preserves_mapM fun f _ ↦ preserves_getFunction f.name).bind fun programFunctions ↦ ?_
  refine Run.Preserves.bind (preserves_modify fun _ ↦ ⟨rfl, rfl⟩) fun _ ↦ ?_
  refine completes_ensureMain.bind fun _ ↦ ?_
  refine Run.Preserves.bind (preserves_modify fun _ ↦ ⟨rfl, rfl⟩) fun _ ↦ ?_
  refine (preserves_createFunction _ _ _).bind fun calloc ↦ ?_
  refine Run.Preserves.bind (preserves_modify fun _ ↦ ⟨rfl, rfl⟩) fun _ ↦ preserves_modify fun s ↦ ⟨?_, ?_⟩
  · rw [CodegenState.addFields_frame]
  · rw [CodegenState.addFields_frame]

/-- Every function of a module that the code generator returns is written to its end. -/
theorem ASTProgram.completed_of_codegen {p : ASTProgram} {fields : List String}
    {s s' : CodegenState} {m : Module} (hreturns : Run.Returns (p.codegen fields) s m s') :
    ∀ f ∈ m.functions, f.Completed := by
  unfold ASTProgram.codegen at hreturns
  obtain ⟨_, s₁, hdeclare, hreturns⟩ := Run.returns_bind.1 hreturns
  obtain ⟨_, s₂, hfunctions, hreturns⟩ := Run.returns_bind.1 hreturns
  have h₂ := Run.preserves_forM (fun f _ ↦ ASTFunction.completes_generate f) s₁ () s₂
    (ASTProgram.allCompleted_of_declareFunctions hdeclare) hfunctions
  rw [returns_get.bind_iff] at hreturns
  obtain ⟨rfl, rfl⟩ := Run.returns_pure.1 hreturns
  exact h₂.completed

/-- Every function of a module that the code generator returns is in static single assignment form,
whatever was compiled before. -/
theorem ASTProgram.isSsa_of_codegen {p : ASTProgram} {fields : List String} {s s' : CodegenState}
    {m : Module} (hreturns : Run.Returns (p.codegen fields) s m s') : ∀ f ∈ m.functions, f.IsSsa :=
  fun f hf ↦ (ASTProgram.completed_of_codegen hreturns f hf).isSsa

/-- `main(x) { while (x > 0) if (x == 7) x = 0; else x--; return x; }` -/
def countdownProgram : ASTProgram where
  functions := [{
    node := 17
    decl := ⟨0, "main"⟩
    formals := [⟨1, "x"⟩]
    declarations := []
    body := [.whileStmt 14 (.binaryExpr 4 .gt (.variableExpr 2 "x") (.numberExpr 3 0))
      (.ifStmt 13 (.binaryExpr 7 .eq (.variableExpr 5 "x") (.numberExpr 6 7))
        (.assignStmt 10 (.variableExpr 8 "x") (.numberExpr 9 0))
        (some (.updateStmt 12 (.variableExpr 11 "x") false)))]
    ret := ⟨16, .variableExpr 15 "x"⟩
    isPoly := false }]
  distinct := by decide

/-- A function of seven blocks, between three declarations. -/
theorem isSsa_countdownProgram : ∃ m s, Run.Returns (countdownProgram.codegen []) .initial m s ∧
    (m.functions.map fun f ↦ f.blocks.length) = [0, 7, 0] ∧ ∀ f ∈ m.functions, f.IsSsa := by
  have hreturns : Run.Returns (countdownProgram.codegen []) .initial _ _ := ⟨rfl, rfl⟩
  exact ⟨_, _, hreturns, rfl, ASTProgram.isSsa_of_codegen hreturns⟩

end Sipc
