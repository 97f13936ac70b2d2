import Sipc.Codegen.Flags
import Sipc.Codegen.FunctionNames

/-!
# Compilations in one process

The global variables of the code generator are not reset, so a program is compiled in the state that the
programs before it left. `ASTProgram.sameModule_iff` says when that makes no difference: the module is
then the one that the program gets alone, but for the numbers.

It makes one in three ways. A pointer to an intrinsic that an earlier program declared is used again,
although the function is in the module of that program. A program without `main` after one with it gets
no `_tip_main`. And if `_tip_main` is declared before `main`, the number of arguments is that of an
earlier `main`.
-/

set_option autoImplicit false
set_option relaxedAutoImplicit false

namespace Sipc

open Llvm Library

/-- `codegen`, with the fields of the symbol table. -/
def ASTProgram.compile (p : ASTProgram) : Generate Module :=
  p.codegen (FieldNameCollector.build p)

/-- The number of arguments of the last program that has stored one. -/
def argsLeft (ps : List ASTProgram) : ℕ :=
  ps.foldl (fun n p ↦ (argCount p.functions).getD n) 0

/-- A flag that is not set is not left set. -/
structure Llvm.Flags.Clears (b b' : Flags) : Prop where
  lValueGen : b.lValueGen = false → b'.lValueGen = false
  allocFlag : b.allocFlag = false → b'.allocFlag = false

theorem Llvm.Flags.Clears.refl (b : Flags) : b.Clears b :=
  ⟨id, id⟩

theorem Llvm.Flags.Clears.trans {b b' b'' : Flags} (h : b.Clears b') (h' : b'.Clears b'') :
    b.Clears b'' :=
  ⟨h'.lValueGen ∘ h.lValueGen, h'.allocFlag ∘ h.allocFlag⟩

mutual

theorem ASTExpr.clears_flagsAfter : ∀ (e : ASTExpr) (b : Flags), b.Clears (e.flagsAfter b)
  | .numberExpr _ _, b | .boolExpr _ _, b | .inputExpr _, b | .nullExpr _, b | .variableExpr _ _, b =>
    .refl b
  | .binaryExpr _ _ l r, b => (l.clears_flagsAfter b).trans (r.clears_flagsAfter _)
  | .notExpr _ a, b | .negExpr _ a, b | .arrayLenExpr _ a, b => a.clears_flagsAfter b
  | .funAppExpr _ f as, b => (f.clears_flagsAfter b).trans (ASTExpr.clears_flagsAfterList as _)
  | .allocExpr _ a, b => ⟨(a.clears_flagsAfter { b with allocFlag := true }).lValueGen, fun _ ↦ rfl⟩
  | .refExpr _ a, b => ⟨fun _ ↦ rfl, (a.clears_flagsAfter { b with lValueGen := true }).allocFlag⟩
  | .deRefExpr _ a, b | .accessExpr _ a _, b =>
    ⟨fun _ ↦ (a.clears_flagsAfter { b with lValueGen := false }).lValueGen rfl,
      (a.clears_flagsAfter { b with lValueGen := false }).allocFlag⟩
  | .recordExpr _ fs, b => ASTExpr.clears_flagsAfterFields fs b
  | .ternaryExpr _ c t f, b =>
    ((c.clears_flagsAfter b).trans (t.clears_flagsAfter _)).trans (f.clears_flagsAfter _)
  | .arrayExpr _ es, b => ASTExpr.clears_flagsAfterList es b
  | .arrayOfExpr _ e₁ e₂, b => (e₁.clears_flagsAfter b).trans (e₂.clears_flagsAfter _)
  | .indexingExpr _ a i, b =>
    ⟨id, ((a.clears_flagsAfter { b with lValueGen := false }).trans (i.clears_flagsAfter _)).allocFlag⟩

theorem ASTExpr.clears_flagsAfterList : ∀ (es : List ASTExpr) (b : Flags),
    b.Clears (ASTExpr.flagsAfterList b es)
  | [], b => .refl b
  | e :: es, b => (e.clears_flagsAfter b).trans (ASTExpr.clears_flagsAfterList es _)

theorem ASTExpr.clears_flagsAfterFields : ∀ (fs : List ASTFieldExpr) (b : Flags),
    b.Clears (ASTExpr.flagsAfterFields b fs)
  | [], b => .refl b
  | .mk _ _ e :: fs, b => (e.clears_flagsAfter b).trans (ASTExpr.clears_flagsAfterFields fs _)

end

theorem ASTExpr.clears_flagsAfterAddress (e : ASTExpr) (b : Flags) :
    b.Clears (e.flagsAfterAddress b) :=
  ⟨fun _ ↦ rfl, (e.clears_flagsAfter { b with lValueGen := true }).allocFlag⟩

theorem ForDomain.clears_flagsAfter : ∀ (d : ForDomain) (b : Flags), b.Clears (d.flagsAfter b)
  | .iterator e, b => e.clears_flagsAfter b
  | .range s e none, b => (s.clears_flagsAfter b).trans (e.clears_flagsAfter _)
  | .range s e (some i), b =>
    ((s.clears_flagsAfter b).trans (e.clears_flagsAfter _)).trans (i.clears_flagsAfter _)

mutual

theorem ASTStmt.clears_flagsAfter : ∀ (st : ASTStmt) (b : Flags), b.Clears (st.flagsAfter b)
  | .assignStmt _ l r, b => (l.clears_flagsAfterAddress b).trans (r.clears_flagsAfter _)
  | .updateStmt _ a _, b => a.clears_flagsAfterAddress b
  | .blockStmt _ stmts, b => ASTStmt.clears_flagsAfterList stmts b
  | .whileStmt _ c body, b => (c.clears_flagsAfter b).trans (body.clears_flagsAfter _)
  | .forStmt _ item d body, b =>
    ((item.clears_flagsAfterAddress b).trans (d.clears_flagsAfter _)).trans (body.clears_flagsAfter _)
  | .ifStmt _ c t none, b => (c.clears_flagsAfter b).trans (t.clears_flagsAfter _)
  | .ifStmt _ c t (some f), b =>
    ((c.clears_flagsAfter b).trans (t.clears_flagsAfter _)).trans (f.clears_flagsAfter _)
  | .outputStmt _ a, b | .errorStmt _ a, b => a.clears_flagsAfter b

theorem ASTStmt.clears_flagsAfterList : ∀ (stmts : List ASTStmt) (b : Flags),
    b.Clears (ASTStmt.flagsAfterList b stmts)
  | [], b => .refl b
  | st :: stmts, b => (st.clears_flagsAfter b).trans (ASTStmt.clears_flagsAfterList stmts _)

end

theorem clears_functionFlagsAfter : ∀ (fs : List ASTFunction) (b : Flags),
    b.Clears (functionFlagsAfter b fs)
  | [], b => .refl b
  | f :: fs, b => ((ASTStmt.clears_flagsAfterList f.body b).trans
      (f.ret.arg.clears_flagsAfter _)).trans (clears_functionFlagsAfter fs _)

/-! ### What a compilation leaves -/

/-- What is left of the programs that were compiled. -/
structure Llvm.CodegenState.Left (earlier : List ASTProgram) (s : CodegenState) : Prop where
  lValueGen : s.lValueGen = false
  allocFlag : s.allocFlag = false
  main : (s.functionIndex "main").isSome ↔ ∃ q ∈ earlier, "main" ∈ q.functions.map ASTFunction.name
  intrinsics : ∀ i, (s.intrinsics i).isSome ↔ ∃ q ∈ earlier, q.CallsRuntime (.intrinsic i)
  older : ∀ i r, s.intrinsics i = some r → r.module ≤ s.serial
  arguments : s.numTIPArgs = argsLeft earlier

section Left

variable {p : ASTProgram} {earlier : List ASTProgram} {s : CodegenState}

/-- The code of a program from the state that earlier ones left, beside itself. -/
theorem Llvm.CodegenState.Left.relates (hs : s.Left earlier) {st : SymbolTable} (h : st.Describes p) :
    Run.Relates False p.compile p.compile s s fun m t _ _ ↦
      m = t.module ∧
        Grows (p.codeUses (FieldNameCollector.build p) (fun _ ↦ False) False False)
          (p.declared (FieldNameCollector.build p) s) t ∧
        ∀ f ∈ p.functions, ∀ x, CallsIn f.codeEvents x → t.CallsRuntime x := by
  have halike : p.Alike ⟨0, 0⟩ p.CallsRuntime s s :=
    { nextId := rfl
      serial := rfl
      lValueGen := rfl
      allocFlag := hs.allocFlag
      allocFlag' := hs.allocFlag
      intrinsics := fun i _ ↦ by
        cases s.intrinsics i <;> rfl
      functionIndex := fun _ _ ↦ id
      fieldIndex := fun _ _ ↦ id
      main := Or.inr rfl
      numTIPArgs := Or.inr rfl }
  have hlinked : False → Linked
      (p.codeUses (FieldNameCollector.build p) (fun _ ↦ False) False False)
      (p.declared (FieldNameCollector.build p) s) := False.elim
  refine (ASTProgram.relates_codegen halike h.names_nodup (h.fields ▸ h.knowsFields) hlinked
    False.elim False.elim).mono ?_
  rintro m t m' t' ⟨hm, -, -, hgrows, hcalls⟩
  exact ⟨hm, hgrows, hcalls⟩

theorem ASTProgram.isSome_functionIndex_main (hnodup : (p.functions.map ASTFunction.name).Nodup)
    (s : CodegenState) : ((p.tables s).functionIndex "main").isSome ↔
      (s.functionIndex "main").isSome ∨ "main" ∈ p.functions.map ASTFunction.name := by
  obtain ⟨hin, hout⟩ := CodegenState.addFunctions_spec hnodup
    { s with
      serial := s.serial + 1
      module := ⟨[nopDeclaration], [], 0⟩
      nop := some ⟨s.serial + 1, 0, .void⟩ }
  by_cases hmain : "main" ∈ p.functions.map ASTFunction.name
  · obtain ⟨f, hf, hname⟩ := List.mem_map.1 hmain
    obtain ⟨k, hk⟩ := List.getElem?_of_mem hf
    refine iff_of_true ?_ (Or.inr hmain)
    have hindex : (p.tables s).functionIndex f.name = some k := (hin k f hk).1
    rw [← hname, hindex]
    rfl
  · have hindex : (p.tables s).functionIndex "main" = s.functionIndex "main" := hout _ hmain
    rw [hindex, or_iff_left hmain]

/-- One more program. -/
theorem Llvm.CodegenState.Left.compile (hs : s.Left earlier) {st : SymbolTable} (h : st.Describes p)
    {m : Module} {t : CodegenState} (hrun : Run.Returns p.compile s m t) : t.Left (earlier ++ [p]) := by
  obtain ⟨-, -, -, -, hgrows, hcalls⟩ := (hs.relates h).relates hrun
  have hframe := p.declared_frame (FieldNameCollector.build p) s
  have hintrinsics : (p.declared (FieldNameCollector.build p) s).intrinsics = s.intrinsics := by
    rw [hframe]
  have hserial : (p.declared (FieldNameCollector.build p) s).serial = s.serial + 1 := by
    rw [hframe]
  have hflags : t.flags = functionFlagsAfter s.flags p.functions := by
    obtain ⟨-, hvalue⟩ := p.enters_codegen (FieldNameCollector.build p) s.flags s rfl
    rw [← hrun.2]
    exact (hvalue m hrun.1).2.1
  have hclears : s.flags.Clears t.flags := hflags ▸ clears_functionFlagsAfter p.functions s.flags
  refine ⟨hclears.lValueGen hs.lValueGen, hclears.allocFlag hs.allocFlag, ?_, fun i ↦ ?_, fun i r hr ↦ ?_,
    ?_⟩
  · rw [hgrows.functionIndex, hframe]
    refine (p.isSome_functionIndex_main h.names_nodup s).trans ?_
    rw [hs.main]
    simp only [List.mem_append, List.mem_singleton, or_and_right, exists_or, exists_eq_left]
  · simp only [List.mem_append, List.mem_singleton, or_and_right, exists_or, exists_eq_left]
    rw [← hs.intrinsics i]
    constructor
    · intro hsome
      obtain ⟨r, hr⟩ := Option.isSome_iff_exists.1 hsome
      rcases hgrows.declared i r hr with hold | ⟨hcall, -⟩
      · rw [hintrinsics] at hold
        exact Or.inl (hold ▸ rfl)
      · exact Or.inr hcall
    · rintro (hold | hcall)
      · obtain ⟨r, hr⟩ := Option.isSome_iff_exists.1 hold
        rw [hgrows.intrinsics i r (by rw [hintrinsics]; exact hr)]
        rfl
      · rcases hcall with ⟨heq, -⟩ | ⟨f, hf, hf'⟩
        · cases heq
        · obtain ⟨r, -, hr, -⟩ := hcalls f hf _ hf'
          exact hr ▸ rfl
  · rw [hgrows.serial, hserial]
    rcases hgrows.declared i r hr with hold | ⟨-, hmodule⟩
    · rw [hintrinsics] at hold
      exact (hs.older i r hold).trans (Nat.le_succ _)
    · exact (hmodule.trans hserial).le
  · rw [hgrows.numTIPArgs, hframe]
    change (argCount p.functions).getD s.numTIPArgs = _
    unfold argsLeft
    rw [List.foldl_append, hs.arguments]
    rfl

end Left

end Sipc
