import Sipc.Codegen.Appending
import Sipc.Codegen.FunctionNames
import Sipc.Codegen.SsaFunctions
import Sipc.Frontend.ProgramRoundTrip

/-!
# Which programs have code

The code generator throws where a `var` declares nothing, and where a name is neither bound nor a
function. It visits every variable of a function, so where it comes to the end, all of them are resolved
(`Llvm.Reading`). After the semantic analysis a variable is not resolved only in a function that has the
LLVM function of another, whose formals are not bound (`ASTProgram.codegen_returns_iff`). In a text that
is a function `_tip_main` after `main` (`FrontEnd.compiles_iff`).
-/

set_option autoImplicit false
set_option relaxedAutoImplicit false

namespace Sipc.Llvm

open IR (Label)
open Library

/-- The name is bound or a function. -/
def CodegenState.Knows (s : CodegenState) (x : String) : Prop :=
  (s.namedValues x).isSome ∨ (s.functionIndex x).isSome

theorem Appends.knows {s t : CodegenState} (h : Appends s t) (x : String) :
    t.Knows x ↔ s.Knows x := by
  unfold CodegenState.Knows
  rw [h.namedValues, h.functionIndex]

/-- The method looks the name up. -/
class Reading (x : String) {α : Type} (m : Generate α) : Prop where
  knows : ∀ {s t : CodegenState} {a : α}, s.InBlock → Run.Returns m s a t → s.Knows x

/-- Among the calls of a visitor is one for a variable of that name. -/
def ReadIn (x : String) (events : List VisitEvent) : Prop :=
  ∃ n, .endVisit (.expr (.variableExpr n x)) ∈ events

section Events

variable {x : String} {l l' : List VisitEvent}

theorem not_readIn_nil : ¬ ReadIn x [] :=
  fun ⟨_, h⟩ ↦ List.not_mem_nil h

theorem readIn_append : ReadIn x (l ++ l') ↔ ReadIn x l ∨ ReadIn x l' := by
  unfold ReadIn
  simp only [List.mem_append, exists_or]

theorem ReadIn.of_visiting {node : ASTNode} (h : ReadIn x (visiting node l))
    (hnode : ∀ n, node ≠ .expr (.variableExpr n x)) : ReadIn x l := by
  obtain ⟨n, h⟩ := h
  rcases List.mem_cons.1 h with h | h
  · cases h
  · rcases List.mem_append.1 h with h | h
    · exact ⟨n, h⟩
    · have heq := List.mem_singleton.1 h
      exact absurd (VisitEvent.endVisit.inj heq).symm (hnode n)

theorem ReadIn.of_variable {n : NodeId} {name : String}
    (h : ReadIn x (ASTExpr.variableExpr n name).accept) : name = x := by
  by_contra hne
  refine not_readIn_nil (ReadIn.of_visiting h fun n' heq ↦ ?_)
  exact hne (ASTExpr.variableExpr.inj (ASTNode.expr.inj heq)).2

end Events

/-! ### Methods -/

section Methods

variable {α β γ : Type} {x : String} {m : Generate α} {f : α → Generate β}

theorem reading_bind (hm : Appending m) (hf : ∀ a, Reading x (f a)) : Reading x (m >>= f) where
  knows h hreturns := by
    obtain ⟨a, t, hm, hf⟩ := Run.returns_bind.1 hreturns
    have ht := Appending.appends h hm
    exact (ht.knows x).1 (Reading.knows ht.inBlock hf)

instance [Appending m] [∀ a, Reading x (f a)] : Reading x (m >>= f) :=
  reading_bind inferInstance fun _ ↦ inferInstance

instance [Reading x m] : Reading x (m >>= f) where
  knows h hreturns := by
    obtain ⟨a, t, hm, -⟩ := Run.returns_bind.1 hreturns
    exact Reading.knows h hm

instance {c : Prop} [Decidable c] {m m' : Generate α} [Reading x m] [Reading x m'] :
    Reading x (if c then m else m') := by
  split_ifs <;> infer_instance

instance (e : ASTExpr) {code : Generate Operand} [Reading x code] : Reading x (address e code) where
  knows h hreturns := by
    rename_i s t v
    unfold address at hreturns
    rw [returns_modify.bind_iff] at hreturns
    obtain ⟨v, u, hcode, -⟩ := Run.returns_bind.1 hreturns
    have hknows : CodegenState.Knows { s with lValueGen := true } x := Reading.knows h hcode
    exact hknows

instance : Reading x (generateVariable x) where
  knows _ hreturns := by
    rename_i s t v
    unfold generateVariable at hreturns
    rw [returns_get.bind_iff] at hreturns
    by_contra hunknown
    unfold CodegenState.Knows at hunknown
    simp only [not_or, Option.not_isSome_iff_eq_none] at hunknown
    rw [hunknown.1, hunknown.2] at hreturns
    exact Run.not_returns_fail hreturns

/-- One of the parts of a loop looks the name up. -/
theorem reading_loop {pre : Generate α} {head : α → Generate β} {cond : β → Operand}
    {body : α → β → Generate Unit} {rest : α → β → Generate γ} (hpre : Appending pre)
    (hhead : ∀ a, Appending (head a)) (hbody : ∀ a b, Appending (body a b))
    (h : Reading x pre ∨ (∀ a, Reading x (head a)) ∨ ∀ a b, Reading x (body a b)) :
    Reading x (loop pre head cond body rest) where
  knows hs hreturns := by
    obtain ⟨s₀, a, s₁, b, s₂, s₃, hs₀, hpre, hheader, hhead, hstart, hbody, -, -⟩ :=
      returns_loop hs hreturns
    rcases h with h | h | h
    · exact (hs₀.appends.knows x).1 (Reading.knows hs₀.appends.inBlock hpre)
    · exact (hheader.appends.knows x).1 (Reading.knows hheader.appends.inBlock hhead)
    · exact (hstart.appends.knows x).1 (Reading.knows hstart.appends.inBlock hbody)

section Choices

variable {condVal : Operand} {thenCode : Generate α} {elseCode : Generate β}
  {rest : α → Label → β → Label → Generate γ} [Appending thenCode] [Appending elseCode]

instance [Reading x thenCode] : Reading x (choice condVal thenCode elseCode rest) where
  knows hs hreturns := by
    obtain ⟨s₀, s₁, a, s₂, b, s₃, -, -, hthen, hreturns, -⟩ := returns_choice hs hreturns
    exact (hthen.appends.knows x).1 (Reading.knows hthen.appends.inBlock hreturns)

instance [Reading x elseCode] : Reading x (choice condVal thenCode elseCode rest) where
  knows hs hreturns := by
    obtain ⟨s₀, s₁, a, s₂, b, s₃, -, -, -, -, helse, hreturns, -⟩ := returns_choice hs hreturns
    exact (helse.appends.knows x).1 (Reading.knows helse.appends.inBlock hreturns)

end Choices

end Methods
end Sipc.Llvm

namespace Sipc

open Llvm Library

variable {x : String}

mutual

/-- The variables of an expression are looked up. The cases are those of the generator. -/
theorem ASTExpr.reading_generate : ∀ e : ASTExpr, ReadIn x e.accept → Reading x e.generate
  | .numberExpr _ _, h | .boolExpr _ _, h | .inputExpr _, h | .nullExpr _, h =>
    absurd (h.of_visiting nofun) not_readIn_nil
  | .variableExpr _ name, h => by
    obtain rfl := h.of_variable
    rw [ASTExpr.generate]
    infer_instance
  | .binaryExpr _ _ left right, h => by
    rw [ASTExpr.generate]
    rcases readIn_append.1 (h.of_visiting nofun) with h | h
    · have hleft := left.reading_generate h
      infer_instance
    · have hright := right.reading_generate h
      infer_instance
  | .notExpr _ arg, h | .negExpr _ arg, h | .deRefExpr _ arg, h | .arrayLenExpr _ arg, h
  | .allocExpr _ arg, h | .refExpr _ arg, h | .accessExpr _ arg _, h => by
    have harg := arg.reading_generate (h.of_visiting nofun)
    rw [ASTExpr.generate]
    infer_instance
  | .funAppExpr _ function actuals, h => by
    rw [ASTExpr.generate]
    rcases readIn_append.1 (h.of_visiting nofun) with h | h
    · have hfunction := function.reading_generate h
      infer_instance
    · have hactuals := ASTExpr.reading_generateList actuals h
      infer_instance
  | .recordExpr _ fields, h => by
    have hfields (record : Operand) :=
      ASTExpr.reading_generateFields fields record (h.of_visiting nofun)
    rw [ASTExpr.generate]
    infer_instance
  | .ternaryExpr n condition thenExpr elseExpr, h => by
    rw [generate_ternaryExpr]
    rcases readIn_append.1 (h.of_visiting nofun) with h | h
    · rcases readIn_append.1 h with h | h
      · have hcondition := condition.reading_generate h
        infer_instance
      · have hthen := thenExpr.reading_generate h
        infer_instance
    · have helse := elseExpr.reading_generate h
      infer_instance
  | .arrayExpr _ elements, h => by
    have helements (int64Ptr : Operand) :=
      ASTExpr.reading_generateElements elements int64Ptr 0 (h.of_visiting nofun)
    rw [ASTExpr.generate]
    infer_instance
  | .arrayOfExpr n e1 e2, h => by
    rw [generate_arrayOfExpr]
    rcases readIn_append.1 (h.of_visiting nofun) with h | h
    · have hsize := e1.reading_generate h
      infer_instance
    · have helement := e2.reading_generate h
      refine reading_bind inferInstance fun _ ↦ reading_bind inferInstance fun _ ↦ ?_
      refine reading_bind inferInstance fun _ ↦ reading_bind inferInstance fun _ ↦ ?_
      refine reading_bind inferInstance fun _ ↦ reading_bind inferInstance fun _ ↦ ?_
      refine reading_bind inferInstance fun _ ↦ reading_bind inferInstance fun _ ↦ ?_
      exact reading_loop inferInstance (fun _ ↦ inferInstance) (fun _ (_, _) ↦ inferInstance)
        (.inr (.inr fun _ (_, _) ↦ inferInstance))
  | .indexingExpr n arr idx, h => by
    rw [ASTExpr.generate]
    rcases readIn_append.1 (h.of_visiting nofun) with h | h
    · have harr := arr.reading_generate h
      infer_instance
    · have hidx := idx.reading_generate h
      infer_instance

theorem ASTExpr.reading_generateList : ∀ es : List ASTExpr, ReadIn x (ASTExpr.acceptList es) →
    Reading x (ASTExpr.generateList es)
  | [], h => absurd h not_readIn_nil
  | e :: es, h => by
    rw [ASTExpr.generateList]
    rcases readIn_append.1 h with h | h
    · have he := e.reading_generate h
      infer_instance
    · have hes := ASTExpr.reading_generateList es h
      infer_instance

theorem ASTExpr.reading_generateElements : ∀ (es : List ASTExpr) (int64Ptr : Operand) (i : ℕ),
    ReadIn x (ASTExpr.acceptList es) → Reading x (ASTExpr.generateElements int64Ptr i es)
  | [], _, _, h => absurd h not_readIn_nil
  | e :: es, int64Ptr, i, h => by
    rw [ASTExpr.generateElements]
    rcases readIn_append.1 h with h | h
    · have he := e.reading_generate h
      infer_instance
    · have hes := ASTExpr.reading_generateElements es int64Ptr (i + 1) h
      infer_instance

theorem ASTExpr.reading_generateFields : ∀ (fs : List ASTFieldExpr) (record : Operand),
    ReadIn x (ASTExpr.acceptFields fs) → Reading x (ASTExpr.generateFields record fs)
  | [], _, h => absurd h not_readIn_nil
  | .mk _ _ initializer :: fs, record, h => by
    rw [ASTExpr.generateFields]
    rcases readIn_append.1 h with h | h
    · have hvalue := initializer.reading_generate (h.of_visiting nofun)
      infer_instance
    · have hfs := ASTExpr.reading_generateFields fs record h
      infer_instance

end

theorem reading_generateRange (rangeStart rangeEnd : ASTExpr) : ∀ increment : Option ASTExpr,
    ReadIn x (ForDomain.range rangeStart rangeEnd increment).accept →
      Reading x (generateRange rangeStart rangeEnd increment)
  | none, h => by
    unfold generateRange
    rcases readIn_append.1 h with h | h
    · have hstart := rangeStart.reading_generate h
      infer_instance
    · have hend := rangeEnd.reading_generate h
      infer_instance
  | some e, h => by
    unfold generateRange
    rcases readIn_append.1 h with h | h
    · rcases readIn_append.1 h with h | h
      · have hstart := rangeStart.reading_generate h
        infer_instance
      · have hend := rangeEnd.reading_generate h
        infer_instance
    · have hincrement := e.reading_generate h
      infer_instance

mutual

/-- The variables of a statement are looked up. The cases are those of the generator. -/
theorem ASTStmt.reading_generate : ∀ stmt : ASTStmt, ReadIn x stmt.accept → Reading x stmt.generate
  | .assignStmt _ lhs rhs, h => by
    rw [ASTStmt.generate]
    rcases readIn_append.1 (h.of_visiting nofun) with h | h
    · have hlhs := lhs.reading_generate h
      infer_instance
    · have hrhs := rhs.reading_generate h
      infer_instance
  | .updateStmt _ arg _, h | .outputStmt _ arg, h | .errorStmt _ arg, h => by
    have harg := arg.reading_generate (h.of_visiting nofun)
    rw [ASTStmt.generate]
    infer_instance
  | .blockStmt _ [], h => absurd (h.of_visiting nofun) not_readIn_nil
  | .blockStmt _ (s :: stmts), h => by
    rw [ASTStmt.generate]
    rcases readIn_append.1 (h.of_visiting nofun) with h | h
    · have hs := s.reading_generate h
      infer_instance
    · have hstmts := ASTStmt.reading_generateList stmts h
      infer_instance
  | .whileStmt n condition body, h => by
    rw [generate_whileStmt]
    refine reading_loop inferInstance (fun _ ↦ inferInstance) (fun _ _ ↦ inferInstance) (.inr ?_)
    rcases readIn_append.1 (h.of_visiting nofun) with h | h
    · have hcondition := condition.reading_generate h
      exact .inl fun _ ↦ inferInstance
    · exact .inr fun _ _ ↦ body.reading_generate h
  | .forStmt n item (.range rangeStart rangeEnd increment) body, h => by
    rw [generate_forRange]
    refine reading_loop inferInstance (fun (_, _, _) ↦ inferInstance)
      (fun (_, _, _) _ ↦ inferInstance) ?_
    rcases readIn_append.1 (h.of_visiting nofun) with h | h
    · refine .inl ?_
      unfold startRange
      rcases readIn_append.1 h with h | h
      · have hitem := item.reading_generate h
        infer_instance
      · have hrange := reading_generateRange rangeStart rangeEnd increment h
        infer_instance
    · have hbody := body.reading_generate h
      exact .inr (.inr fun (_, _, _) _ ↦ inferInstance)
  | .forStmt n item (.iterator iterator) body, h => by
    rw [generate_forIterator]
    refine reading_loop inferInstance (fun (_, _, _, _) ↦ inferInstance)
      (fun (_, _, _, _) _ ↦ inferInstance) ?_
    rcases readIn_append.1 (h.of_visiting nofun) with h | h
    · refine .inl ?_
      unfold startIterator
      rcases readIn_append.1 h with h | h
      · have hitem := item.reading_generate h
        infer_instance
      · have hiterator := iterator.reading_generate h
        infer_instance
    · have hbody := body.reading_generate h
      exact .inr (.inr fun (_, _, _, _) _ ↦ inferInstance)
  | .ifStmt n condition thenStmt none, h => by
    rw [generate_ifStmt]
    rcases readIn_append.1 (h.of_visiting nofun) with h | h
    · have hcondition := condition.reading_generate h
      infer_instance
    · have hthen := thenStmt.reading_generate h
      infer_instance
  | .ifStmt n condition thenStmt (some elseStmt), h => by
    rw [generate_ifStmt, ASTStmt.generateElse]
    rcases readIn_append.1 (h.of_visiting nofun) with h | h
    · rcases readIn_append.1 h with h | h
      · have hcondition := condition.reading_generate h
        infer_instance
      · have hthen := thenStmt.reading_generate h
        infer_instance
    · have helse := elseStmt.reading_generate h
      infer_instance

theorem ASTStmt.reading_generateList : ∀ stmts : List ASTStmt,
    ReadIn x (ASTStmt.acceptList stmts) → Reading x (ASTStmt.generateList stmts)
  | [], h => absurd h not_readIn_nil
  | s :: stmts, h => by
    rw [ASTStmt.generateList]
    rcases readIn_append.1 h with h | h
    · have hs := s.reading_generate h
      infer_instance
    · have hstmts := ASTStmt.reading_generateList stmts h
      infer_instance

end

/-! ### Functions and programs -/

theorem Llvm.AtStart.inBlock {args : ℕ} {s : CodegenState} (h : AtStart args s) : s.InBlock := by
  obtain ⟨d, hs, hd⟩ := h
  obtain ⟨f, hf, hblocks, -⟩ := hs.function
  unfold CodegenState.InBlock CodegenState.code Module.code
  rw [hf, hs.current]
  change d.current < f.blocks.length
  rw [hblocks]
  exact (hd.sound.current_lt hd.isOpen).1

section Described

variable {p : ASTProgram} {st : SymbolTable} (h : st.Describes p)

include h

/-- Otherwise the code generator comes to its end. -/
theorem SymbolTable.Describes.exists_codegen
    (hdecls : ∀ f ∈ p.functions, ∀ stmt ∈ f.declarations, stmt.vars ≠ [])
    (hown : ∀ f ∈ p.functions, ∀ x, f.Uses x →
      ¬ (p.Borrows f ∧ x ∈ f.formals.map ASTDeclNode.name)) :
    ∃ m s, Run.Returns (p.codegen st.getFields) .initial m s := by
  have hdeclared := p.returns_declareFunctions h.names_nodup st.getFields .initial
  obtain ⟨⟨⟩, s, hrun⟩ := (h.relates True hdecls (fun _ ↦ hown) p.functions.length).returns trivial
  rw [List.take_length] at hrun
  exact ⟨s.module, s, hdeclared.bind_iff.2 (Run.returns_bind.2 ⟨(), s, hrun, rfl, rfl⟩)⟩

end Described

theorem ASTFunction.Parsed.isIdentifier {f : ASTFunction} (h : f.Parsed) : IsIdentifier f.name := by
  have hchildren := lexicalList_iff.1 h.lexical.2
  have hdecl := hchildren f.decl.shape (List.mem_append_left _ (List.mem_append_left _
    (List.mem_append_left _ List.mem_cons_self)))
  exact hdecl.1

end Sipc
