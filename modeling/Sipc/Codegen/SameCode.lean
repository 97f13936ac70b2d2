import Sipc.Codegen.TwoCompilations

/-!
# The same code twice

The code of every node follows itself (`ASTExpr.follows_generate`, `ASTStmt.follows_generate`), with
the rules for the steps it is made of. It calls exactly the runtime functions of the nodes below it.
-/

set_option autoImplicit false
set_option relaxedAutoImplicit false

namespace Sipc

open Llvm Library

section FollowsAny

variable {d : Offset} {U : CodeUses} {n : ℕ} {α β : Type} [Shifts α] [Shifts β] {X Y : RuntimeFunction → Prop}

/-- The first step calls nothing. -/
theorem Llvm.FollowsAny.next {m m' : Generate α} {f f' : α → Generate β}
    (hm : FollowsAny d U n m m' Y) (hf : ∀ a, FollowsAny d U n (f a) (f' (shift d a)) X) :
    FollowsAny d U n (m >>= f) (m' >>= f') X :=
  (hm.bind hf).weaken fun _ ↦ Or.inr

/-- What follows the first step calls nothing. -/
theorem Llvm.FollowsAny.last {m m' : Generate α} {f f' : α → Generate β}
    (hm : FollowsAny d U n m m' X) (hf : ∀ a, FollowsAny d U n (f a) (f' (shift d a)) fun _ ↦ False) :
    FollowsAny d U n (m >>= f) (m' >>= f') X :=
  (hm.bind hf).weaken fun _ ↦ Or.inl

omit [Shifts β] in
theorem Llvm.FollowsAny.silent {m m' : Generate α} (h : FollowsAny d U n m m' X) :
    FollowsAny d U n m m' fun _ ↦ False :=
  h.weaken fun _ ↦ False.elim

omit [Shifts β] in
/-- What follows in a block that is there. -/
theorem follows_inBlock {l : ℕ} {m m' : Generate α} (hl : l < n) (h : FollowsAny d U n m m' X) :
    FollowsAny d U n (setInsertPoint l >>= fun _ ↦ m) (setInsertPoint l >>= fun _ ↦ m') X :=
  (follows_setInsertPoint hl).next fun _ ↦ h

omit [Shifts β] in
/-- A branch on a value that is the same in both. -/
theorem follows_ite (b : Bool) {l l' r r' : Generate α} (hl : FollowsAny d U n l l' X)
    (hr : FollowsAny d U n r r' X) :
    FollowsAny d U n (if b then l else r) (if shift d b then l' else r') X := by
  cases b
  · exact hr
  · exact hl

/-! ### Expressions -/

theorem BinaryOp.follows_generate (op : BinaryOp) (l r : Operand) :
    FollowsAny d U n (op.generate l r) (op.generate (shift d l) (shift d r)) fun _ ↦ False := by
  have hcompare : ∀ p : IR.Predicate,
      FollowsAny d U n (do let cmp ← emit (.icmp p l r); emit (.zext cmp))
        (do let cmp ← emit (.icmp p (shift d l) (shift d r)); emit (.zext cmp)) fun _ ↦ False :=
    fun p ↦ (follows_emit (.icmp p l r)).next fun cmp ↦ follows_emit (.zext cmp)
  cases op
  case gt | ge | lt | le | eq | ne => exact hcompare _
  case add => exact follows_emit (.binary .add l r)
  case sub => exact follows_emit (.binary .sub l r)
  case mul => exact follows_emit (.binary .mul l r)
  case div => exact follows_emit (.binary .sdiv l r)
  case and => exact follows_emit (.binary .and l r)
  case or => exact follows_emit (.binary .or l r)
  case mod => exact follows_emit (.binary .srem l r)

theorem follows_generateVariable {name : String} (hname : U.total → U.names name) :
    FollowsAny d U n (generateVariable name) (generateVariable name) fun _ ↦ False := by
  unfold generateVariable
  refine follows_get fun s s' h ↦ ?_
  have hnamed := h.namedValues name
  cases hs : s.namedValues name with
  | some alloca =>
    rw [hs] at hnamed
    rw [hnamed, h.lValueGen]
    refine follows_ite s.lValueGen (follows_pure alloca.operand)
      (follows_emit (.load alloca.operand)) s s' h
  | none =>
    rw [hs] at hnamed
    rw [hnamed]
    cases hindex : s.functionIndex name with
    | some idx =>
      rw [h.functionIndex name idx hindex]
      exact follows_pure (Operand.const (BitVec.ofNat 64 idx)) s s' h
    | none =>
      refine Run.relates_fail fun htotal ↦ ?_
      have hsome := h.resolves htotal name (hname htotal)
      rw [hs, hindex] at hsome
      simp at hsome

omit [Shifts β] in
/-- A field of the program is found. -/
theorem follows_index {field : String} (hfield : U.fields field) {f f' : ℕ → Generate α}
    (h : ∀ index, FollowsAny d U n (f index) (f' index) X) :
    FollowsAny d U n (get >>= fun s ↦ Run.orFail (.unknownField field) (s.fieldIndex field) >>= f)
      (get >>= fun s ↦ Run.orFail (.unknownField field) (s.fieldIndex field) >>= f') X := by
  refine follows_get fun s s' hs ↦ ?_
  refine Run.Relates.bind (Q := fun index t index' t' ↦ index' = index ∧ t = s ∧ t' = s')
    (Run.relates_orFail (fun _ ↦ hs.fields field hfield) fun index hindex ↦
      ⟨index, hs.fieldIndex field index hindex, rfl, rfl, rfl⟩) ?_
  rintro index _ index' _ ⟨rfl, rfl, rfl⟩
  exact h index' _ _ hs

/-- The call of a runtime function that was declared before. -/
theorem followsAt_callIntrinsic {s s' : CodegenState} (h : Ahead d U n s s') {i : Intrinsic}
    (hU : U.calls (.intrinsic i)) {r : FunctionRef} (hr : s.intrinsics i = some r)
    (args : List Operand) :
    FollowsAt d U n (emitUnit (.call (.function r) args))
      (emitUnit (.call (.function (shift d r)) (shift d args))) (fun x ↦ x = .intrinsic i) s s' := by
  refine followsAt_emitUnit h (i := .call (.function r) args) (fun r' args' hcall ↦ ?_) ?_
  · cases hcall
    exact Or.inr (Or.inr ⟨i, hr, hU⟩)
  · rintro _ rfl
    exact callsRuntime_insert h (x := .intrinsic i) hr args

theorem follows_generateElement (hU : U.calls (.intrinsic .error)) (isLValue : Bool)
    (arrayPtr length indexVal : Operand) :
    FollowsAny d U n (generateElement isLValue arrayPtr length indexVal)
      (generateElement (shift d isLValue) (shift d arrayPtr) (shift d length) (shift d indexVal))
      fun x ↦ x = .intrinsic .error := by
  unfold generateElement
  refine (follows_emit (.icmp .slt indexVal (.const 0))).next fun isIndexNegative ↦ ?_
  refine (follows_emit (.icmp .sge indexVal length)).next fun isIndexTooLarge ↦ ?_
  refine (follows_emit (.binary .or isIndexNegative isIndexTooLarge)).next fun isOutOfBounds ↦ ?_
  refine follows_createBlock fun inBounds _ ↦ follows_createBlock fun outOfBounds hout ↦ ?_
  refine follows_createBlock fun continue' hcontinue ↦ ?_
  refine (follows_emitUnit (.condBr isOutOfBounds outOfBounds inBounds)).next fun _ ↦ ?_
  refine follows_inBlock (by omega) (follows_intrinsic hU fun r s s' hr hs ↦ ?_)
  refine ((followsAt_callIntrinsic hs hU hr [.const 0]).bind fun _ t t' ht _ ↦
    (FollowsAny.next (X := fun _ ↦ False) (follows_emitUnit .unreachable) fun _ ↦ ?_) t t' ht).weaken
      fun _ ↦ Or.inl
  refine follows_inBlock (by omega) ?_
  refine (follows_emit (.binary .add indexVal (.const 1))).next fun adjustedIndex ↦ ?_
  refine (follows_emit (.elementPtr arrayPtr adjustedIndex)).next fun elementPtr ↦ ?_
  refine (follows_emitUnit (.br continue')).next fun _ ↦ ?_
  refine follows_inBlock (Nat.lt_succ_self _) ?_
  exact follows_ite isLValue (follows_emit (.phi [(elementPtr, inBounds)]))
    (follows_emit (.load elementPtr))

omit [Shifts α] in
/-- The code of an expression that calls nothing itself. -/
theorem follows_quiet {e : ASTExpr} {l : List VisitEvent} {code : Generate Operand}
    (hcode : e.generate = get >>= fun s ↦ Run.emit (.entered e s.lValueGen s.allocFlag) >>= fun _ ↦ code)
    (haccept : e.accept = visiting (.expr e) l) (hruntime : (ASTNode.expr e).runtime = none)
    (h : FollowsAny d U n code code (CallsIn l)) :
    FollowsAny d U n e.generate e.generate (CallsIn e.accept) := by
  rw [hcode]
  refine (follows_entered e h).weaken fun x hx ↦ ?_
  rw [haccept, callsIn_visiting, hruntime] at hx
  exact hx.resolve_left fun h ↦ by cases h

omit [Shifts α] in
/-- The code of an expression that calls a function of the runtime. -/
theorem follows_caller {e : ASTExpr} {l : List VisitEvent} {code : Generate Operand}
    {x₀ : RuntimeFunction}
    (hcode : e.generate = get >>= fun s ↦ Run.emit (.entered e s.lValueGen s.allocFlag) >>= fun _ ↦ code)
    (haccept : e.accept = visiting (.expr e) l) (hruntime : (ASTNode.expr e).runtime = some x₀)
    (h : FollowsAny d U n code code fun x ↦ CallsIn l x ∨ x = x₀) :
    FollowsAny d U n e.generate e.generate (CallsIn e.accept) := by
  rw [hcode]
  refine (follows_entered e h).weaken fun x hx ↦ ?_
  rw [haccept, callsIn_visiting, hruntime] at hx
  exact hx.symm.imp_right fun hx ↦ (Option.some.inj hx).symm

mutual

/-- The code of an expression follows itself. The cases are those of the generator. -/
theorem ASTExpr.follows_generate : ∀ (e : ASTExpr) {n : ℕ}, Fit U e.accept →
    FollowsAny d U n e.generate e.generate (CallsIn e.accept)
  | .numberExpr _ val, _, _ => follows_quiet (by rw [ASTExpr.generate]) rfl rfl
      ((follows_pure (Operand.const (val.toBitVec.signExtend 64))).weaken fun _ ↦ not_callsIn_nil)
  | .boolExpr _ val, _, _ => follows_quiet (by rw [ASTExpr.generate]) rfl rfl
      ((follows_pure (Operand.const (if val then 1 else 0))).weaken fun _ ↦ not_callsIn_nil)
  | .inputExpr _, n, hfit => by
    refine follows_caller (l := []) (by rw [ASTExpr.generate]) rfl rfl ?_
    have hU := hfit.of_visiting.1.calls _ rfl
    refine follows_intrinsic hU fun r s s' hr hs ↦ ?_
    refine (followsAt_emit hs (i := .call (.function r) []) (fun r' args hcall ↦ ?_)
      fun x hx ↦ ?_).weaken (X := fun x ↦ x = .intrinsic .input)
      fun _ h ↦ h.resolve_left not_callsIn_nil
    · cases hcall
      exact Or.inr (Or.inr ⟨_, hr, hU⟩)
    · rw [hx]
      exact callsRuntime_insert hs (x := .intrinsic .input) hr []
  | .nullExpr _, _, _ => follows_quiet (by rw [ASTExpr.generate]) rfl rfl
      ((follows_emit (.ptrToInt .null)).weaken fun _ ↦ not_callsIn_nil)
  | .variableExpr _ name, _, hfit => follows_quiet (by rw [ASTExpr.generate]) rfl rfl
      ((follows_generateVariable (hfit.of_visiting.1.names name rfl)).weaken
        fun _ ↦ not_callsIn_nil)
  | .binaryExpr _ op l r, _, hfit => by
    obtain ⟨hl, hr⟩ := hfit.of_visiting.2.of_append
    refine follows_quiet (l := l.accept ++ r.accept) (by rw [ASTExpr.generate]) rfl rfl ?_
    refine FollowsAny.weaken ((l.follows_generate hl).bind fun lv ↦
      (r.follows_generate hr).last fun rv ↦ op.follows_generate lv rv) fun _ ↦ callsIn_append.1
  | .notExpr _ a, _, hfit => follows_quiet (by rw [ASTExpr.generate]) rfl rfl
      ((a.follows_generate hfit.of_visiting.2).last fun v ↦ follows_emit (.binary .xor v (.const 1)))
  | .negExpr _ a, _, hfit => follows_quiet (by rw [ASTExpr.generate]) rfl rfl
      ((a.follows_generate hfit.of_visiting.2).last fun v ↦ follows_emit (.binary .sub (.const 0) v))
  | .funAppExpr _ f as, _, hfit => by
    obtain ⟨hf, has⟩ := hfit.of_visiting.2.of_append
    refine follows_quiet (l := f.accept ++ ASTExpr.acceptList as) (by rw [ASTExpr.generate]) rfl rfl ?_
    refine FollowsAny.weaken ((f.follows_generate hf).bind fun funVal ↦ ?_) fun _ ↦ callsIn_append.1
    refine (follows_emit (.functionTablePtr funVal)).next fun gep ↦ ?_
    refine (follows_emit (.loadPointer gep)).next fun functionPointer ↦ ?_
    refine (ASTExpr.follows_generateList as has).last fun argsV ↦ ?_
    exact follows_emit (.call (.indirect functionPointer) argsV)
  | .allocExpr _ a, _, hfit => by
    obtain ⟨hnode, ha⟩ := hfit.of_visiting
    have hU := hnode.calls _ rfl
    refine follows_caller (l := a.accept) (by rw [ASTExpr.generate]) rfl rfl ?_
    refine (follows_setAllocFlag (b := true) fun _ ↦ hU).next fun _ ↦ (a.follows_generate ha).bind fun argVal ↦ ?_
    refine (follows_setAllocFlag (b := false) nofun).next fun _ ↦ ?_
    refine (follows_callCalloc hU (.const 1) (.const 8)).last fun allocInst ↦ ?_
    exact (follows_emitUnit (.store argVal allocInst)).next fun _ ↦ follows_emit (.ptrToInt allocInst)
  | .refExpr _ a, _, hfit => follows_quiet (by rw [ASTExpr.generate]) rfl rfl
      ((follows_address a (a.follows_generate hfit.of_visiting.2)).last fun lValue ↦
        follows_emit (.ptrToInt lValue))
  | .deRefExpr _ a, _, hfit => by
    refine follows_quiet (l := a.accept) (by rw [ASTExpr.generate]) rfl rfl ?_
    refine follows_takeLValue.next fun isLValue ↦ ?_
    refine (a.follows_generate hfit.of_visiting.2).last fun argVal ↦ ?_
    refine (follows_emit (.intToPtr argVal)).next fun address ↦ ?_
    exact follows_ite isLValue (follows_pure address) (follows_emit (.load address))
  | .recordExpr _ fs, _, hfit => by
    refine follows_quiet (l := ASTExpr.acceptFields fs) (by rw [ASTExpr.generate]) rfl rfl ?_
    refine follows_get fun s s' h ↦ ?_
    rw [h.allocFlag, h.recordFields]
    have hfs := hfit.of_visiting.2
    by_cases hflag : s.allocFlag = true
    · rw [if_pos hflag]
      refine FollowsAny.next (follows_emit (.alloca .pointer)) (fun allocaRecord ↦ ?_) s s' h
      refine (follows_callCalloc (h.allocates hflag) (.const 1) (.const _)).next fun recordPtr ↦ ?_
      refine (follows_emitUnit (.store recordPtr allocaRecord)).next fun _ ↦ ?_
      refine (follows_emit (.loadPointer allocaRecord)).next fun loadInst ↦ ?_
      refine (ASTExpr.follows_generateFields fs hfs loadInst).last fun _ ↦ ?_
      exact follows_emit (.ptrToInt recordPtr)
    · rw [if_neg hflag]
      refine FollowsAny.next (follows_emit (.alloca (.record s.recordFields)))
        (fun allocaRecord ↦ ?_) s s' h
      refine (ASTExpr.follows_generateFields fs hfs allocaRecord).last fun _ ↦ ?_
      exact follows_emit (.ptrToInt allocaRecord)
  | .accessExpr _ r field, _, hfit => by
    obtain ⟨hnode, hr⟩ := hfit.of_visiting
    refine follows_quiet (l := r.accept) (by rw [ASTExpr.generate]) rfl rfl ?_
    refine follows_takeLValue.next fun isLValue ↦ ?_
    refine follows_index (hnode.fields field rfl) fun index ↦ ?_
    refine (r.follows_generate hr).last fun recordVal ↦ ?_
    refine (follows_emit (.intToPtr recordVal)).next fun recordAddress ↦ ?_
    refine (follows_emit (.fieldPtr recordAddress index)).next fun gep ↦ ?_
    exact follows_ite isLValue (follows_pure gep) (follows_emit (.load gep))
  | .ternaryExpr _ c t f, _, hfit => by
    obtain ⟨hct, hf⟩ := hfit.of_visiting.2.of_append
    obtain ⟨hc, ht⟩ := hct.of_append
    refine follows_quiet (l := c.accept ++ t.accept ++ f.accept) (by rw [ASTExpr.generate]) rfl rfl ?_
    refine FollowsAny.weaken ((c.follows_generate hc).bind fun condVal ↦ ?_) fun x hx ↦
      by rwa [callsIn_append, callsIn_append, or_assoc] at hx
    refine follows_createBlock fun thenBB _ ↦ follows_createBlock fun elseBB _ ↦ ?_
    refine follows_createBlock fun mergeBB _ ↦ ?_
    refine (follows_branchOn condVal thenBB elseBB).next fun _ ↦ follows_inBlock (by omega) ?_
    refine (t.follows_generate ht).bind fun thenV ↦ (follows_emitUnit (.br mergeBB)).next fun _ ↦ ?_
    refine follows_getInsertBlock.next fun thenEnd ↦ follows_inBlock (by omega) ?_
    refine (f.follows_generate hf).last fun elseV ↦ (follows_emitUnit (.br mergeBB)).next fun _ ↦ ?_
    refine follows_getInsertBlock.next fun elseEnd ↦ follows_inBlock (Nat.lt_succ_self _) ?_
    exact follows_emit (.phi [(thenV, thenEnd), (elseV, elseEnd)])
  | .arrayExpr _ es, _, hfit => by
    obtain ⟨hnode, hes⟩ := hfit.of_visiting
    refine follows_caller (l := ASTExpr.acceptList es) (by rw [ASTExpr.generate]) rfl rfl ?_
    refine FollowsAny.weaken ((follows_callCalloc (hnode.calls _ rfl) _ (.const 8)).bind
      fun int64Ptr ↦ ?_) fun _ ↦ Or.symm
    refine (follows_emitUnit (.store (.const _) int64Ptr)).next fun _ ↦ ?_
    refine (ASTExpr.follows_generateElements es hes int64Ptr 0).last fun _ ↦ ?_
    exact follows_emit (.ptrToInt int64Ptr)
  | .arrayOfExpr _ e₁ e₂, _, hfit => by
    obtain ⟨hnode, hes⟩ := hfit.of_visiting
    obtain ⟨he₁, he₂⟩ := hes.of_append
    refine follows_caller (l := e₁.accept ++ e₂.accept) (by rw [ASTExpr.generate]) rfl rfl ?_
    refine FollowsAny.weaken ((e₁.follows_generate he₁).bind fun sizeValue ↦ ?_) (X := fun x ↦
      CallsIn e₁.accept x ∨ x = .calloc ∨ CallsIn e₂.accept x) fun x hx ↦ by
        rw [callsIn_append] at hx
        tauto
    refine (follows_emit (.binary .add sizeValue (.const 1))).next fun numItems ↦ ?_
    refine (follows_callCalloc (hnode.calls _ rfl) numItems (.const 8)).bind fun int64Ptr ↦ ?_
    refine (follows_emitUnit (.store sizeValue int64Ptr)).next fun _ ↦ ?_
    refine (follows_emit (.alloca .int)).next fun indexPtr ↦ ?_
    refine (follows_emitUnit (.store (.const 1) indexPtr)).next fun _ ↦ ?_
    refine follows_createBlock fun loopCondBB _ ↦ follows_createBlock fun loopBodyBB _ ↦ ?_
    refine follows_createBlock fun loopEndBB _ ↦ (follows_emitUnit (.br loopCondBB)).next fun _ ↦ ?_
    refine follows_inBlock (by omega) ((follows_emit (.load indexPtr)).next fun currentIndex ↦ ?_)
    refine (follows_emit (.icmp .sle currentIndex sizeValue)).next fun loopCond ↦ ?_
    refine (follows_emitUnit (.condBr loopCond loopBodyBB loopEndBB)).next fun _ ↦ ?_
    refine follows_inBlock (by omega) ((e₂.follows_generate he₂).last fun elementValue ↦ ?_)
    refine (follows_emit (.elementPtr int64Ptr currentIndex)).next fun elementPtr ↦ ?_
    refine (follows_emitUnit (.store elementValue elementPtr)).next fun _ ↦ ?_
    refine (follows_emit (.binary .add currentIndex (.const 1))).next fun nextIndex ↦ ?_
    refine (follows_emitUnit (.store nextIndex indexPtr)).next fun _ ↦ ?_
    refine (follows_emitUnit (.br loopCondBB)).next fun _ ↦ follows_inBlock (Nat.lt_succ_self _) ?_
    exact follows_emit (.ptrToInt int64Ptr)
  | .indexingExpr _ arr idx, _, hfit => by
    obtain ⟨hnode, hes⟩ := hfit.of_visiting
    obtain ⟨harr, hidx⟩ := hes.of_append
    refine follows_caller (l := arr.accept ++ idx.accept) (by rw [ASTExpr.generate]) rfl rfl ?_
    refine follows_takeLValue.next fun isLValue ↦ ?_
    refine FollowsAny.weaken ((arr.follows_generate harr).bind fun arrayVal ↦ ?_) fun x hx ↦ by
      rwa [callsIn_append, or_assoc] at hx
    refine (follows_emit (.intToPtr arrayVal)).next fun arrayPtr ↦ ?_
    refine (follows_emit (.load arrayPtr)).next fun length ↦ ?_
    refine (idx.follows_generate hidx).bind fun indexVal ↦ ?_
    refine (follows_setLValueGen isLValue).next fun _ ↦ ?_
    exact follows_generateElement (hnode.calls _ rfl) isLValue arrayPtr length indexVal
  | .arrayLenExpr _ a, _, hfit => by
    refine follows_quiet (l := a.accept) (by rw [ASTExpr.generate]) rfl rfl ?_
    refine (a.follows_generate hfit.of_visiting.2).last fun arrayVal ↦ ?_
    exact (follows_emit (.intToPtr arrayVal)).next fun arrayPtr ↦ follows_emit (.load arrayPtr)

theorem ASTExpr.follows_generateList : ∀ (es : List ASTExpr) {n : ℕ}, Fit U (ASTExpr.acceptList es) →
    FollowsAny d U n (ASTExpr.generateList es) (ASTExpr.generateList es)
      (CallsIn (ASTExpr.acceptList es))
  | [], _, _ => (follows_pure []).weaken fun _ ↦ not_callsIn_nil
  | e :: es, _, hfit => by
    obtain ⟨he, hes⟩ := hfit.of_append
    unfold ASTExpr.generateList
    refine FollowsAny.weaken ((e.follows_generate he).bind fun v ↦
      (ASTExpr.follows_generateList es hes).last fun vs ↦ follows_pure (v :: vs)) fun _ ↦ callsIn_append.1

theorem ASTExpr.follows_generateElements : ∀ (es : List ASTExpr) {n : ℕ},
    Fit U (ASTExpr.acceptList es) → ∀ (ptr : Operand) (i : ℕ),
      FollowsAny d U n (ASTExpr.generateElements ptr i es)
        (ASTExpr.generateElements (shift d ptr) i es) (CallsIn (ASTExpr.acceptList es))
  | [], _, _, _, _ => (follows_pure ()).weaken fun _ ↦ not_callsIn_nil
  | e :: es, _, hfit, ptr, i => by
    obtain ⟨he, hes⟩ := hfit.of_append
    unfold ASTExpr.generateElements
    refine FollowsAny.weaken ((e.follows_generate he).bind fun v ↦ ?_) fun _ ↦ callsIn_append.1
    refine (follows_emit (.elementPtr ptr (.const _))).next fun elementPtr ↦ ?_
    refine (follows_emitUnit (.store v elementPtr)).next fun _ ↦ ?_
    exact ASTExpr.follows_generateElements es hes ptr (i + 1)

theorem ASTExpr.follows_generateFields : ∀ (fs : List ASTFieldExpr) {n : ℕ},
    Fit U (ASTExpr.acceptFields fs) → ∀ record : Operand,
      FollowsAny d U n (ASTExpr.generateFields record fs)
        (ASTExpr.generateFields (shift d record) fs) (CallsIn (ASTExpr.acceptFields fs))
  | [], _, _, _ => (follows_pure ()).weaken fun _ ↦ not_callsIn_nil
  | .mk _ field e :: fs, _, hfit, record => by
    obtain ⟨hf, hfs⟩ := hfit.of_append
    obtain ⟨hnode, he⟩ := hf.of_visiting
    unfold ASTExpr.generateFields
    refine (follows_fieldSlot (hnode.fields field rfl)).next fun index ↦ ?_
    refine (follows_emit (.fieldPtr record index)).next fun gep ↦ ?_
    refine FollowsAny.weaken ((e.follows_generate he).bind fun v ↦ (follows_emitUnit (.store v gep)).next
      fun _ ↦ ASTExpr.follows_generateFields fs hfs record) fun x hx ↦ ?_
    rw [show ASTExpr.acceptFields (.mk _ field e :: fs) = _ ++ _ from rfl, callsIn_append,
      callsIn_visiting] at hx
    exact hx.imp_left (Or.resolve_left · nofun)

end

theorem ASTExpr.follows_generateAddress (e : ASTExpr) {n : ℕ} (hfit : Fit U e.accept) :
    FollowsAny d U n (address e e.generate) (address e e.generate) (CallsIn e.accept) :=
  follows_address e (e.follows_generate hfit)

theorem follows_generateRange (s e : ASTExpr) (i : Option ASTExpr) {n : ℕ}
    (hfit : Fit U (ForDomain.range s e i).accept) :
    FollowsAny d U n (generateRange s e i) (generateRange s e i)
      (CallsIn (ForDomain.range s e i).accept) := by
  unfold generateRange
  cases i with
  | none =>
    obtain ⟨hs, he⟩ := hfit.of_append
    refine FollowsAny.weaken ((s.follows_generate hs).bind fun startV ↦ (e.follows_generate he).last
      fun endV ↦ follows_pure (startV, endV, Operand.const 1)) fun _ ↦ callsIn_append.1
  | some i =>
    obtain ⟨hse, hi⟩ := hfit.of_append
    obtain ⟨hs, he⟩ := hse.of_append
    refine FollowsAny.weaken ((s.follows_generate hs).bind fun startV ↦ (e.follows_generate he).bind
      fun endV ↦ (i.follows_generate hi).last fun incrementV ↦
        follows_pure (startV, endV, incrementV)) fun x hx ↦ ?_
    rwa [show (ForDomain.range s e (some i)).accept = _ ++ _ ++ _ from rfl, callsIn_append,
      callsIn_append, or_assoc] at hx

/-! ### Statements -/

omit [Shifts α] in
/-- The code of a statement that calls nothing itself. -/
theorem follows_quietStmt {st : ASTStmt} {l : List VisitEvent} {code : Generate Unit}
    (haccept : st.accept = visiting (.stmt st) l) (hruntime : (ASTNode.stmt st).runtime = none)
    (h : FollowsAny d U n code code (CallsIn l)) : FollowsAny d U n code code (CallsIn st.accept) := by
  refine h.weaken fun x hx ↦ ?_
  rw [haccept, callsIn_visiting, hruntime] at hx
  exact hx.resolve_left fun h ↦ by cases h

/-- A runtime function is declared, an argument generated for it, and it is called. -/
theorem follows_callWith {i : Intrinsic} (hU : U.calls (.intrinsic i)) {a : ASTExpr} {n : ℕ}
    (ha : Fit U a.accept) {st : ASTStmt} (haccept : st.accept = visiting (.stmt st) a.accept)
    (hruntime : (ASTNode.stmt st).runtime = some (.intrinsic i)) :
    FollowsAny d U n
      (do let f ← intrinsic i; let argVal ← a.generate; emitUnit (.call (.function f) [argVal]))
      (do let f ← intrinsic i; let argVal ← a.generate; emitUnit (.call (.function f) [argVal]))
      (CallsIn st.accept) := by
  refine follows_intrinsic hU fun r s s' hr hs ↦ ?_
  refine ((a.follows_generate ha s s' hs).bind fun argVal t t' ht hgrows ↦
    followsAt_callIntrinsic ht hU (hgrows.intrinsics i r hr) [argVal]).weaken fun x hx ↦ ?_
  rw [haccept, callsIn_visiting, hruntime] at hx
  exact hx.symm.imp_right fun hx ↦ (Option.some.inj hx).symm

mutual

/-- The code of a statement follows itself. -/
theorem ASTStmt.follows_generate : ∀ (st : ASTStmt) {n : ℕ}, Fit U st.accept →
    FollowsAny d U n st.generate st.generate (CallsIn st.accept)
  | .assignStmt _ lhs rhs, _, hfit => by
    obtain ⟨hl, hr⟩ := hfit.of_visiting.2.of_append
    unfold ASTStmt.generate
    refine follows_quietStmt (l := lhs.accept ++ rhs.accept) rfl rfl ?_
    exact FollowsAny.weaken ((lhs.follows_generateAddress hl).bind fun lValue ↦
      (rhs.follows_generate hr).last fun rValue ↦ follows_emitUnit (.store rValue lValue))
        fun _ ↦ callsIn_append.1
  | .updateStmt _ a increment, _, hfit => by
    unfold ASTStmt.generate
    refine follows_quietStmt (l := a.accept) rfl rfl ?_
    refine (a.follows_generateAddress hfit.of_visiting.2).last fun argVal ↦ ?_
    refine (follows_emit (.load argVal)).next fun argValLoaded ↦ ?_
    refine (follows_emit (.binary (if increment then .add else .sub) argValLoaded (.const 1))).next
      fun updatedVal ↦ ?_
    exact follows_emitUnit (.store updatedVal argVal)
  | .blockStmt _ [], _, _ => by
    unfold ASTStmt.generate
    exact follows_quietStmt (l := []) rfl rfl (follows_callNop.weaken fun _ ↦ not_callsIn_nil)
  | .blockStmt _ (st :: stmts), _, hfit => by
    obtain ⟨hst, hstmts⟩ := hfit.of_visiting.2.of_append
    unfold ASTStmt.generate
    refine follows_quietStmt (l := st.accept ++ ASTStmt.acceptList stmts) rfl rfl ?_
    exact FollowsAny.weaken ((st.follows_generate hst).bind fun _ ↦
      ASTStmt.follows_generateList stmts hstmts) fun _ ↦ callsIn_append.1
  | .whileStmt _ c body, _, hfit => by
    obtain ⟨hc, hbody⟩ := hfit.of_visiting.2.of_append
    unfold ASTStmt.generate
    refine follows_quietStmt (l := c.accept ++ body.accept) rfl rfl ?_
    refine follows_createBlock fun headerBB _ ↦ follows_createBlock fun bodyBB _ ↦ ?_
    refine follows_createBlock fun exitBB _ ↦ (follows_emitUnit (.br headerBB)).next fun _ ↦ ?_
    refine follows_inBlock (by omega) (FollowsAny.weaken ((c.follows_generate hc).bind fun condVal ↦ ?_)
      fun _ ↦ callsIn_append.1)
    refine (follows_branchOn condVal bodyBB exitBB).next fun _ ↦ follows_inBlock (by omega) ?_
    refine (body.follows_generate hbody).last fun _ ↦ (follows_emitUnit (.br headerBB)).next fun _ ↦ ?_
    exact follows_inBlock (Nat.lt_succ_self _) follows_callNop
  | .forStmt _ item (.range s e i) body, _, hfit => by
    obtain ⟨hdomain, hbody⟩ := hfit.of_visiting.2.of_append
    obtain ⟨hitem, hrange⟩ := hdomain.of_append
    unfold ASTStmt.generate
    refine follows_quietStmt (l := item.accept ++ (ForDomain.range s e i).accept ++ body.accept)
      rfl rfl ?_
    refine follows_createBlock fun headerBB _ ↦ follows_createBlock fun bodyBB _ ↦ ?_
    refine follows_createBlock fun exitBB _ ↦ ?_
    refine FollowsAny.weaken ((item.follows_generateAddress hitem).bind fun itemV ↦
      (follows_generateRange s e i hrange).bind fun range ↦ ?_) fun x hx ↦
        by rwa [callsIn_append, callsIn_append, or_assoc] at hx
    obtain ⟨startV, endV, incrementV⟩ := range
    refine (follows_emitUnit (.store startV itemV)).next fun _ ↦ ?_
    refine (follows_emitUnit (.br headerBB)).next fun _ ↦ follows_inBlock (by omega) ?_
    refine (follows_emit (.load itemV)).next fun itemVal ↦ ?_
    refine (follows_emit (.icmp .slt itemVal endV)).next fun condV ↦ ?_
    refine (follows_emitUnit (.condBr condV bodyBB exitBB)).next fun _ ↦
      follows_inBlock (by omega) ?_
    refine (body.follows_generate hbody).last fun _ ↦ ?_
    refine (follows_emit (.load itemV)).next fun currentItemV ↦ ?_
    refine (follows_emit (.binary .add currentItemV incrementV)).next fun nextItemV ↦ ?_
    refine (follows_emitUnit (.store nextItemV itemV)).next fun _ ↦ ?_
    refine (follows_emitUnit (.br headerBB)).next fun _ ↦ ?_
    exact follows_inBlock (Nat.lt_succ_self _) follows_callNop
  | .forStmt _ item (.iterator e) body, _, hfit => by
    obtain ⟨hdomain, hbody⟩ := hfit.of_visiting.2.of_append
    obtain ⟨hitem, he⟩ := hdomain.of_append
    unfold ASTStmt.generate
    refine follows_quietStmt (l := item.accept ++ (ForDomain.iterator e).accept ++ body.accept)
      rfl rfl ?_
    refine follows_createBlock fun headerBB _ ↦ follows_createBlock fun bodyBB _ ↦ ?_
    refine follows_createBlock fun exitBB _ ↦ ?_
    refine FollowsAny.weaken ((item.follows_generateAddress hitem).bind fun itemV ↦
      (e.follows_generate he).bind fun iteratorV ↦ ?_) fun x hx ↦
        by rwa [callsIn_append, callsIn_append, or_assoc] at hx
    refine (follows_emit (.alloca .int)).next fun indexV ↦ ?_
    refine (follows_emitUnit (.store (.const 1) indexV)).next fun _ ↦ ?_
    refine (follows_emit (.intToPtr iteratorV)).next fun arrayPtr ↦ ?_
    refine (follows_emit (.load arrayPtr)).next fun length ↦ ?_
    refine (follows_emitUnit (.br headerBB)).next fun _ ↦ follows_inBlock (by omega) ?_
    refine (follows_emit (.load indexV)).next fun curIndex ↦ ?_
    refine (follows_emit (.icmp .sle curIndex length)).next fun condV ↦ ?_
    refine (follows_emitUnit (.condBr condV bodyBB exitBB)).next fun _ ↦
      follows_inBlock (by omega) ?_
    refine (follows_emit (.load indexV)).next fun currentIndexV ↦ ?_
    refine (follows_emit (.elementPtr arrayPtr currentIndexV)).next fun elementPtr ↦ ?_
    refine (follows_emit (.load elementPtr)).next fun elementValue ↦ ?_
    refine (follows_emitUnit (.store elementValue itemV)).next fun _ ↦ ?_
    refine (body.follows_generate hbody).last fun _ ↦ ?_
    refine (follows_emit (.binary .add currentIndexV (.const 1))).next fun nextIndexV ↦ ?_
    refine (follows_emitUnit (.store nextIndexV indexV)).next fun _ ↦ ?_
    refine (follows_emitUnit (.br headerBB)).next fun _ ↦ ?_
    exact follows_inBlock (Nat.lt_succ_self _) follows_callNop
  | .ifStmt _ c t none, _, hfit => by
    obtain ⟨hc, ht⟩ := hfit.of_visiting.2.of_append
    unfold ASTStmt.generate ASTStmt.generateElse
    refine follows_quietStmt (l := c.accept ++ t.accept) rfl rfl ?_
    refine FollowsAny.weaken ((c.follows_generate hc).bind fun condVal ↦ ?_) fun _ ↦ callsIn_append.1
    refine follows_createBlock fun thenBB _ ↦ follows_createBlock fun elseBB _ ↦ ?_
    refine follows_createBlock fun mergeBB _ ↦ ?_
    refine (follows_branchOn condVal thenBB elseBB).next fun _ ↦ follows_inBlock (by omega) ?_
    refine (t.follows_generate ht).last fun _ ↦ (follows_emitUnit (.br mergeBB)).next fun _ ↦ ?_
    refine follows_inBlock (by omega) (follows_callNop.next fun _ ↦ ?_)
    refine (follows_emitUnit (.br mergeBB)).next fun _ ↦ ?_
    exact follows_inBlock (Nat.lt_succ_self _) follows_callNop
  | .ifStmt _ c t (some f), _, hfit => by
    obtain ⟨hct, hf⟩ := hfit.of_visiting.2.of_append
    obtain ⟨hc, ht⟩ := hct.of_append
    unfold ASTStmt.generate ASTStmt.generateElse
    refine follows_quietStmt (l := c.accept ++ t.accept ++ f.accept) rfl rfl ?_
    refine FollowsAny.weaken ((c.follows_generate hc).bind fun condVal ↦ ?_) fun x hx ↦
      by rwa [callsIn_append, callsIn_append, or_assoc] at hx
    refine follows_createBlock fun thenBB _ ↦ follows_createBlock fun elseBB _ ↦ ?_
    refine follows_createBlock fun mergeBB _ ↦ ?_
    refine (follows_branchOn condVal thenBB elseBB).next fun _ ↦ follows_inBlock (by omega) ?_
    refine (t.follows_generate ht).bind fun _ ↦ (follows_emitUnit (.br mergeBB)).next fun _ ↦ ?_
    refine follows_inBlock (by omega) ((f.follows_generate hf).last fun _ ↦ ?_)
    refine (follows_emitUnit (.br mergeBB)).next fun _ ↦ ?_
    exact follows_inBlock (Nat.lt_succ_self _) follows_callNop
  | .outputStmt _ a, _, hfit => by
    unfold ASTStmt.generate
    exact follows_callWith (hfit.of_visiting.1.calls _ rfl) hfit.of_visiting.2 rfl rfl
  | .errorStmt _ a, _, hfit => by
    unfold ASTStmt.generate
    exact follows_callWith (hfit.of_visiting.1.calls _ rfl) hfit.of_visiting.2 rfl rfl

theorem ASTStmt.follows_generateList : ∀ (ss : List ASTStmt) {n : ℕ}, Fit U (ASTStmt.acceptList ss) →
    FollowsAny d U n (ASTStmt.generateList ss) (ASTStmt.generateList ss)
      (CallsIn (ASTStmt.acceptList ss))
  | [], _, _ => (follows_pure ()).weaken fun _ ↦ not_callsIn_nil
  | s :: ss, _, hfit => by
    obtain ⟨hs, hss⟩ := hfit.of_append
    unfold ASTStmt.generateList
    exact FollowsAny.weaken ((s.follows_generate hs).bind fun _ ↦ ASTStmt.follows_generateList ss hss)
      fun _ ↦ callsIn_append.1

end

end FollowsAny

end Sipc
