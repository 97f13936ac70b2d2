import Sipc.Codegen.SsaControl

/-!
# The form of the code of expressions and statements

The code for each expression and each statement goes on with the code before it, uses only what is
available there, and leaves its blocks finished (`ASTExpr.emits_generate`, `ASTStmt.emits_generate`).
-/

set_option autoImplicit false
set_option relaxedAutoImplicit false

namespace Sipc

open Llvm Library

variable {args : ℕ} {V : Set Operand}

/-! ### Expressions -/

theorem BinaryOp.emits_generate (op : BinaryOp) {l r : Operand} (hl : l ∈ V ∪ givenOperands args)
    (hr : r ∈ V ∪ givenOperands args) : Emits args V (op.generate l r) fun v ↦ {v} := by
  have hlr : ∀ v ∈ [l, r], v ∈ V ∪ givenOperands args :=
    List.forall_mem_cons.2 ⟨hl, List.forall_mem_singleton.2 hr⟩
  have hcompare : ∀ p : IR.Predicate,
      Emits args V (emit (.icmp p l r) >>= fun cmp ↦ emit (.zext cmp)) fun v ↦ {v} :=
    fun p ↦ (emits_emit rfl hlr).bind fun cmp ↦ emits_emit rfl (by simp)
  cases op
  case gt | ge | lt | le | eq | ne => exact hcompare _
  all_goals exact emits_emit rfl hlr

/-- The alloca of a name is kept available. -/
theorem emits_generateVariable (name : String) :
    Emits args V (generateVariable name) fun v ↦ {v} := by
  intro d s v s' hs hsound hopen hV hreturns
  unfold generateVariable at hreturns
  rw [returns_get.bind_iff] at hreturns
  cases hnamed : s.namedValues name with
  | some a =>
    have hout : {a.operand} ⊆ d.out args :=
      Set.singleton_subset_iff.2 (hsound.kept hopen (hs.named name a hnamed))
    rw [hnamed] at hreturns
    have hcode : Emits args {a.operand}
        (if s.lValueGen = true then pure a.operand else emit (.load a.operand)) fun v ↦ {v} := by
      cases s.lValueGen with
      | true => exact emits_pure (by simp)
      | false => exact emits_emit rfl (by simp)
    exact hcode d s v s' hs hsound hopen hout hreturns
  | none =>
    rw [hnamed] at hreturns
    cases hindex : s.functionIndex name with
    | some idx =>
      rw [hindex] at hreturns
      exact emits_pure (by simp) d s v s' hs hsound hopen hV hreturns
    | none =>
      rw [hindex] at hreturns
      exact absurd hreturns Run.not_returns_fail

theorem emits_entered (e : ASTExpr) {α : Type} {code : Generate α} {Q : α → Set Operand}
    (h : Emits args V code Q) :
    Emits args V (get >>= fun s ↦ Run.emit (.entered e s.lValueGen s.allocFlag) >>= fun _ ↦ code) Q :=
  emits_get.bind fun _ ↦ emits_event.bind fun _ ↦
    h.weaken (Set.subset_union_left.trans Set.subset_union_left)

mutual

/-- The code of an expression goes on with the code before it. The cases are those of the generator. -/
theorem ASTExpr.emits_generate : ∀ (e : ASTExpr) (V : Set Operand),
    Emits args V e.generate fun v ↦ {v}
  | .numberExpr _ val, V => by
    rw [ASTExpr.generate]
    exact emits_entered _ (emits_pure (by simp))
  | .boolExpr _ val, V => by
    rw [ASTExpr.generate]
    exact emits_entered _ (emits_pure (by simp))
  | .inputExpr _, V => by
    rw [ASTExpr.generate]
    exact emits_entered _ ((emits_intrinsic _).bind fun f ↦ emits_emit rfl (List.forall_mem_nil _))
  | .nullExpr _, V => by
    rw [ASTExpr.generate]
    exact emits_entered _ (emits_emit rfl (List.forall_mem_singleton.2 (.inr trivial)))
  | .variableExpr _ name, V => by
    rw [ASTExpr.generate]
    exact emits_entered _ (emits_generateVariable name)
  | .binaryExpr _ op left right, V => by
    rw [ASTExpr.generate]
    refine emits_entered _ ((left.emits_generate V).bind fun l ↦ ?_)
    refine (right.emits_generate _).bind fun r ↦ ?_
    exact op.emits_generate (by simp) (by simp)
  | .notExpr _ arg, V => by
    rw [ASTExpr.generate]
    refine emits_entered _ ((arg.emits_generate V).bind fun argVal ↦ ?_)
    exact emits_emit rfl (by simp)
  | .negExpr _ arg, V => by
    rw [ASTExpr.generate]
    refine emits_entered _ ((arg.emits_generate V).bind fun argVal ↦ ?_)
    exact emits_emit rfl (by simp)
  | .funAppExpr _ function actuals, V => by
    rw [ASTExpr.generate]
    refine emits_entered _ ((function.emits_generate V).bind fun funVal ↦ ?_)
    refine (emits_emit rfl (by simp)).bind fun gep ↦ ?_
    refine (emits_emit rfl (by simp)).bind fun functionPointer ↦ ?_
    refine (ASTExpr.emits_generateList actuals _).bind fun argsV ↦ ?_
    refine emits_emit rfl (List.forall_mem_cons.2 ⟨by simp, fun v hv ↦ ?_⟩)
    exact .inl (.inr hv)
  | .allocExpr _ initializer, V => by
    rw [ASTExpr.generate]
    refine emits_entered _ ((emits_setAllocFlag true).bind fun _ ↦ ?_)
    refine (initializer.emits_generate _).bind fun argVal ↦ ?_
    refine (emits_setAllocFlag false).bind fun _ ↦ ?_
    refine (emits_callCalloc (by simp) (by simp)).bind fun allocInst ↦ ?_
    refine (emits_emitUnit rfl (by simp)).bind fun _ ↦ ?_
    exact emits_emit rfl (by simp)
  | .refExpr _ var, V => by
    rw [ASTExpr.generate]
    refine emits_entered _ ((emits_address (var.emits_generate V) var).bind fun lValue ↦ ?_)
    exact emits_emit rfl (by simp)
  | .deRefExpr _ ptr, V => by
    rw [ASTExpr.generate]
    refine emits_entered _ (emits_takeLValue.bind fun isLValue ↦ ?_)
    refine (ptr.emits_generate _).bind fun argVal ↦ ?_
    refine (emits_emit rfl (by simp)).bind fun address ↦ ?_
    cases isLValue with
    | true => exact emits_pure (by simp)
    | false => exact emits_emit rfl (by simp)
  | .recordExpr _ fields, V => by
    rw [ASTExpr.generate]
    refine emits_entered _ (emits_get.bind fun s ↦ ?_)
    cases s.allocFlag with
    | true =>
      refine (emits_emit rfl (List.forall_mem_nil _)).bind fun allocaRecord ↦ ?_
      refine (emits_callCalloc (by simp) (by simp)).bind fun recordPtr ↦ ?_
      refine (emits_emitUnit rfl (by simp)).bind fun _ ↦ ?_
      refine (emits_emit rfl (by simp)).bind fun loadInst ↦ ?_
      refine (ASTExpr.emits_generateFields fields _ (by simp)).bind fun _ ↦ ?_
      exact emits_emit rfl (by simp)
    | false =>
      refine (emits_emit rfl (List.forall_mem_nil _)).bind fun allocaRecord ↦ ?_
      refine (ASTExpr.emits_generateFields fields _ (by simp)).bind fun _ ↦ ?_
      exact emits_emit rfl (by simp)
  | .accessExpr _ record field, V => by
    rw [ASTExpr.generate]
    refine emits_entered _ (emits_takeLValue.bind fun isLValue ↦ emits_get.bind fun s ↦ ?_)
    refine emits_orFail.bind fun index ↦ (record.emits_generate _).bind fun recordVal ↦ ?_
    refine (emits_emit rfl (by simp)).bind fun recordAddress ↦ ?_
    refine (emits_emit rfl (by simp)).bind fun gep ↦ ?_
    cases isLValue with
    | true => exact emits_pure (by simp)
    | false => exact emits_emit rfl (by simp)
  | .ternaryExpr _ condition thenExpr elseExpr, V => by
    rw [generate_ternaryExpr]
    refine emits_entered _ ((condition.emits_generate V).bind fun condVal ↦ ?_)
    refine emits_choice (by simp) (thenExpr.emits_generate _) (elseExpr.emits_generate _) ?_
    intro d₀ d thenV thenEnd elseV elseEnd v s s' h₀ hs hsound hm hV hreturns
    obtain ⟨rfl, rfl⟩ := returns_emit_iff.1 hreturns
    obtain ⟨hs', hsound', hext, hmem⟩ := hs.write (i := .phi [(thenV, thenEnd), (elseV, elseEnd)])
      hsound hm.isOpen (hm.fits_phi h₀ rfl (.inr rfl) (.inr rfl) (hs.fresh _)) rfl
    exact ⟨_, hs', hsound', hext, Set.singleton_subset_iff.2 hmem⟩
  | .arrayExpr _ elements, V => by
    rw [ASTExpr.generate]
    refine emits_entered _ ((emits_callCalloc (by simp) (by simp)).bind fun int64Ptr ↦ ?_)
    refine (emits_emitUnit rfl (by simp)).bind fun _ ↦ ?_
    refine (ASTExpr.emits_generateElements elements _ 0 (by simp)).bind fun _ ↦ ?_
    exact emits_emit rfl (by simp)
  | .arrayOfExpr _ e1 e2, V => by
    rw [generate_arrayOfExpr]
    refine emits_entered _ ((e1.emits_generate V).bind fun sizeValue ↦ ?_)
    refine (emits_emit rfl (by simp)).bind fun numItems ↦ ?_
    refine (emits_callCalloc (by simp) (by simp)).bind fun int64Ptr ↦ ?_
    refine (emits_emitUnit rfl (by simp)).bind fun _ ↦ ?_
    refine (emits_emit rfl (List.forall_mem_nil _)).bind fun indexPtr ↦ ?_
    refine (emits_emitUnit rfl (by simp)).bind fun _ ↦ ?_
    refine emits_loop (Q := fun _ ↦ ∅) (R := fun b ↦ {b.1, b.2}) ?_ ?_ ?_ ?_ ?_
    · exact emits_pure (Set.empty_subset _)
    · intro _
      refine (emits_emit rfl (by simp)).bind fun currentIndex ↦ ?_
      refine (emits_emit rfl (by simp)).bind fun loopCond ↦ emits_pure ?_
      rintro v (rfl | rfl)
      · simp
      · simp
    · simp
    · rintro _ ⟨currentIndex, loopCond⟩
      refine (e2.emits_generate _).bind fun elementValue ↦ ?_
      refine (emits_emit rfl (by simp)).bind fun elementPtr ↦ ?_
      refine (emits_emitUnit rfl (by simp)).bind fun _ ↦ ?_
      refine (emits_emit rfl (by simp)).bind fun nextIndex ↦ ?_
      exact emits_emitUnit rfl (by simp)
    · exact fun _ _ ↦ emits_emit rfl (by simp)
  | .indexingExpr _ arr idx, V => by
    rw [ASTExpr.generate]
    refine emits_entered _ (emits_takeLValue.bind fun isLValue ↦ ?_)
    refine (arr.emits_generate _).bind fun arrayVal ↦ ?_
    refine (emits_emit rfl (by simp)).bind fun arrayPtr ↦ ?_
    refine (emits_emit rfl (by simp)).bind fun length ↦ ?_
    refine (idx.emits_generate _).bind fun indexVal ↦ (emits_setLValueGen isLValue).bind fun _ ↦ ?_
    exact emits_generateElement isLValue (by simp) (by simp) (by simp)
  | .arrayLenExpr _ ptr, V => by
    rw [ASTExpr.generate]
    refine emits_entered _ ((ptr.emits_generate V).bind fun arrayVal ↦ ?_)
    refine (emits_emit rfl (by simp)).bind fun arrayPtr ↦ ?_
    exact emits_emit rfl (by simp)

theorem ASTExpr.emits_generateList : ∀ (es : List ASTExpr) (V : Set Operand),
    Emits args V (ASTExpr.generateList es) fun vs ↦ {v | v ∈ vs}
  | [], V => by
    rw [ASTExpr.generateList]
    exact emits_pure (by simp)
  | e :: es, V => by
    rw [ASTExpr.generateList]
    refine (e.emits_generate V).bind fun v ↦ (ASTExpr.emits_generateList es _).bind fun vs ↦ ?_
    refine emits_pure fun w hw ↦ ?_
    rcases List.mem_cons.1 hw with rfl | hw
    · exact .inl (.inl (.inr rfl))
    · exact .inl (.inr hw)

theorem ASTExpr.emits_generateElements : ∀ (es : List ASTExpr) (V : Set Operand) (i : ℕ)
    {int64Ptr : Operand}, int64Ptr ∈ V ∪ givenOperands args →
    Emits args V (ASTExpr.generateElements int64Ptr i es) fun _ ↦ ∅
  | [], V, i, _, _ => by
    rw [ASTExpr.generateElements]
    exact emits_pure (Set.empty_subset _)
  | e :: es, V, i, int64Ptr, hptr => by
    rw [ASTExpr.generateElements]
    have hptr' : int64Ptr ∈ V ∨ int64Ptr ∈ givenOperands args := hptr
    refine (e.emits_generate V).bind fun elementValue ↦ ?_
    refine (emits_emit rfl (by simp [or_assoc, hptr'])).bind fun elementPtr ↦ ?_
    refine (emits_emitUnit rfl (by simp)).bind fun _ ↦ ?_
    exact ASTExpr.emits_generateElements es _ (i + 1) (by
      rcases hptr with h | h
      · simp [h]
      · simp [h])

theorem ASTExpr.emits_generateFields : ∀ (fs : List ASTFieldExpr) (V : Set Operand)
    {record : Operand}, record ∈ V ∪ givenOperands args →
    Emits args V (ASTExpr.generateFields record fs) fun _ ↦ ∅
  | [], V, _, _ => by
    rw [ASTExpr.generateFields]
    exact emits_pure (Set.empty_subset _)
  | .mk _ field initializer :: fs, V, record, hrecord => by
    rw [ASTExpr.generateFields]
    refine (emits_fieldSlot field).bind fun index ↦ ?_
    refine (emits_emit rfl (by simpa using hrecord)).bind fun gep ↦ ?_
    refine (initializer.emits_generate _).bind fun value ↦ ?_
    refine (emits_emitUnit rfl (by simp)).bind fun _ ↦ ?_
    exact ASTExpr.emits_generateFields fs _ (by
      rcases hrecord with h | h
      · simp [h]
      · simp [h])

end

/-! ### Statements -/

theorem emits_generateRange (rangeStart rangeEnd : ASTExpr) (increment : Option ASTExpr) :
    Emits args V (generateRange rangeStart rangeEnd increment) fun r ↦ {r.1, r.2.1, r.2.2} := by
  unfold generateRange
  refine (rangeStart.emits_generate V).bind fun startV ↦ ?_
  refine (rangeEnd.emits_generate _).bind fun endV ↦ ?_
  cases increment with
  | none =>
    refine emits_pure ?_
    rintro v (rfl | rfl | rfl) <;> simp
  | some e =>
    refine (e.emits_generate _).bind fun incrementV ↦ emits_pure ?_
    rintro v (rfl | rfl | rfl) <;> simp

mutual

/-- The code of a statement goes on with the code before it. The cases are those of the generator. -/
theorem ASTStmt.emits_generate : ∀ (stmt : ASTStmt) (V : Set Operand),
    Emits args V stmt.generate fun _ ↦ ∅
  | .assignStmt _ lhs rhs, V => by
    rw [ASTStmt.generate]
    refine (emits_address (lhs.emits_generate V) lhs).bind fun lValue ↦ ?_
    refine (rhs.emits_generate _).bind fun rValue ↦ emits_emitUnit rfl (by simp)
  | .updateStmt _ arg increment, V => by
    rw [ASTStmt.generate]
    refine (emits_address (arg.emits_generate V) arg).bind fun argVal ↦ ?_
    refine (emits_emit rfl (by simp)).bind fun argValLoaded ↦ ?_
    refine (emits_emit rfl (by simp)).bind fun updatedVal ↦ ?_
    exact emits_emitUnit rfl (by simp)
  | .blockStmt _ [], V => by
    rw [ASTStmt.generate]
    exact emits_callNop
  | .blockStmt _ (stmt :: stmts), V => by
    rw [ASTStmt.generate]
    exact (stmt.emits_generate V).bind fun _ ↦ ASTStmt.emits_generateList stmts _
  | .whileStmt _ condition body, V => by
    rw [generate_whileStmt]
    refine emits_loop (Q := fun _ ↦ ∅) (R := fun b ↦ {b}) ?_ ?_ ?_ ?_ ?_
    · exact emits_pure (Set.empty_subset _)
    · exact fun _ ↦ (condition.emits_generate _).bind fun condVal ↦ emits_emit rfl (by simp)
    · simp
    · exact fun _ _ ↦ body.emits_generate _
    · exact fun _ _ ↦ emits_callNop
  | .forStmt _ item (.range rangeStart rangeEnd increment) body, V => by
    rw [generate_forRange]
    refine emits_loop (Q := fun a ↦ {a.1, a.2.1, a.2.2}) (R := fun b ↦ {b}) ?_ ?_ ?_ ?_ ?_
    · refine (emits_address (item.emits_generate V) item).bind fun itemV ↦ ?_
      refine (emits_generateRange rangeStart rangeEnd increment).bind fun (startV, endV, incrementV) ↦ ?_
      refine (emits_emitUnit rfl (by simp)).bind fun _ ↦ emits_pure ?_
      rintro v (rfl | rfl | rfl) <;> simp
    · rintro ⟨itemV, endV, incrementV⟩
      exact (emits_emit rfl (by simp)).bind fun itemVal ↦ emits_emit rfl (by simp)
    · simp
    · rintro ⟨itemV, endV, incrementV⟩ condV
      refine (body.emits_generate _).bind fun _ ↦ ?_
      refine (emits_emit rfl (by simp)).bind fun currentItemV ↦ ?_
      refine (emits_emit rfl (by simp)).bind fun nextItemV ↦ ?_
      exact emits_emitUnit rfl (by simp)
    · exact fun _ _ ↦ emits_callNop
  | .forStmt _ item (.iterator iterator) body, V => by
    rw [generate_forIterator]
    refine emits_loop (Q := fun a ↦ {a.1, a.2.1, a.2.2.1, a.2.2.2}) (R := fun b ↦ {b})
      ?_ ?_ ?_ ?_ ?_
    · refine (emits_address (item.emits_generate V) item).bind fun itemV ↦ ?_
      refine (iterator.emits_generate _).bind fun iteratorV ↦ ?_
      refine (emits_emit rfl (List.forall_mem_nil _)).bind fun indexV ↦ ?_
      refine (emits_emitUnit rfl (by simp)).bind fun _ ↦ ?_
      refine (emits_emit rfl (by simp)).bind fun arrayPtr ↦ ?_
      refine (emits_emit rfl (by simp)).bind fun length ↦ emits_pure ?_
      rintro v (rfl | rfl | rfl | rfl) <;> simp
    · rintro ⟨itemV, indexV, arrayPtr, length⟩
      exact (emits_emit rfl (by simp)).bind fun curIndex ↦ emits_emit rfl (by simp)
    · simp
    · rintro ⟨itemV, indexV, arrayPtr, length⟩ condV
      refine (emits_emit rfl (by simp)).bind fun currentIndexV ↦ ?_
      refine (emits_emit rfl (by simp)).bind fun elementPtr ↦ ?_
      refine (emits_emit rfl (by simp)).bind fun elementValue ↦ ?_
      refine (emits_emitUnit rfl (by simp)).bind fun _ ↦ ?_
      refine (body.emits_generate _).bind fun _ ↦ ?_
      refine (emits_emit rfl (by simp)).bind fun nextIndexV ↦ ?_
      exact emits_emitUnit rfl (by simp)
    · exact fun _ _ ↦ emits_callNop
  | .ifStmt _ condition thenStmt elseStmt, V => by
    rw [generate_ifStmt]
    refine (condition.emits_generate V).bind fun condVal ↦ ?_
    refine emits_choice (by simp) (thenStmt.emits_generate _) (ASTStmt.emits_generateElse elseStmt _) ?_
    intro d₀ d _ _ _ _ u s s' _ hs hsound hm hV hreturns
    exact emits_callNop d s u s' hs hsound hm.isOpen hV hreturns
  | .outputStmt _ arg, V => by
    rw [ASTStmt.generate]
    refine (emits_intrinsic _).bind fun output ↦ (arg.emits_generate _).bind fun argVal ↦ ?_
    exact emits_emitUnit rfl (by simp)
  | .errorStmt _ arg, V => by
    rw [ASTStmt.generate]
    refine (emits_intrinsic _).bind fun error ↦ (arg.emits_generate _).bind fun argVal ↦ ?_
    exact emits_emitUnit rfl (by simp)

theorem ASTStmt.emits_generateElse : ∀ (stmt : Option ASTStmt) (V : Set Operand),
    Emits args V (ASTStmt.generateElse stmt) fun _ ↦ ∅
  | none, V => by
    rw [ASTStmt.generateElse]
    exact emits_callNop
  | some stmt, V => by
    rw [ASTStmt.generateElse]
    exact stmt.emits_generate V

theorem ASTStmt.emits_generateList : ∀ (stmts : List ASTStmt) (V : Set Operand),
    Emits args V (ASTStmt.generateList stmts) fun _ ↦ ∅
  | [], V => by
    rw [ASTStmt.generateList]
    exact emits_pure (Set.empty_subset _)
  | stmt :: stmts, V => by
    rw [ASTStmt.generateList]
    exact (stmt.emits_generate V).bind fun _ ↦ ASTStmt.emits_generateList stmts _

end

end Sipc
