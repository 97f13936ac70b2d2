import Sipc.Codegen.ModuleCodegen

/-!
# The shapes of the control flow

The code generator makes blocks in three shapes: a loop with header, body and exit (`while`, both kinds
of `for`, and the filling of an array), two branches that meet (`if` and the conditional expression), and
the bounds check of an index. Each shape is a combinator with the parts as parameters, and the methods
that use it are equal to it.
-/

set_option autoImplicit false
set_option relaxedAutoImplicit false

namespace Sipc.Llvm

open IR (Label)
open Library

variable {α β γ : Type}

/-- The code of a loop. -/
def loop (pre : Generate α) (head : α → Generate β) (cond : β → Operand)
    (body : α → β → Generate Unit) (rest : α → β → Generate γ) : Generate γ := do
  let headerBB ← createBlock
  let bodyBB ← createBlock
  let exitBB ← createBlock
  let a ← pre
  emitUnit (.br headerBB)
  setInsertPoint headerBB
  let b ← head a
  emitUnit (.condBr (cond b) bodyBB exitBB)
  setInsertPoint bodyBB
  body a b
  emitUnit (.br headerBB)
  setInsertPoint exitBB
  rest a b

/-- The code of two branches that meet. -/
def choice (condVal : Operand) (thenCode : Generate α) (elseCode : Generate β)
    (rest : α → Label → β → Label → Generate γ) : Generate γ := do
  let thenBB ← createBlock
  let elseBB ← createBlock
  let mergeBB ← createBlock
  branchOn condVal thenBB elseBB
  setInsertPoint thenBB
  let a ← thenCode
  emitUnit (.br mergeBB)
  let thenEnd ← getInsertBlock
  setInsertPoint elseBB
  let b ← elseCode
  emitUnit (.br mergeBB)
  let elseEnd ← getInsertBlock
  setInsertPoint mergeBB
  rest a thenEnd b elseEnd

/-- The code of a check whose failure ends the program. -/
def check (isFailure : Operand) (failure : Generate Unit) (success : Generate α)
    (rest : α → Label → Generate γ) : Generate γ := do
  let successBB ← createBlock
  let failureBB ← createBlock
  let continueBB ← createBlock
  emitUnit (.condBr isFailure failureBB successBB)
  setInsertPoint failureBB
  failure
  emitUnit .unreachable
  setInsertPoint successBB
  let a ← success
  emitUnit (.br continueBB)
  setInsertPoint continueBB
  rest a successBB

theorem returns_emit {s : CodegenState} {i : Instruction} :
    Run.Returns (emit i) s (.result s.nextId i.kind) (s.insert i) :=
  Run.returns_access.2 rfl

theorem returns_getInsertBlock {s : CodegenState} :
    Run.Returns getInsertBlock s s.insertBlock s :=
  Run.returns_access.2 rfl

/-- A block that is asked for and not used. -/
theorem getInsertBlock_bind (m : Generate α) : (getInsertBlock >>= fun _ ↦ m) = m :=
  rfl

/-! ### Choices -/

theorem generate_ternaryExpr (n : NodeId) (condition thenExpr elseExpr : ASTExpr) :
    (ASTExpr.ternaryExpr n condition thenExpr elseExpr).generate = (do
      let s ← get
      Run.emit (.entered (.ternaryExpr n condition thenExpr elseExpr) s.lValueGen s.allocFlag)
      let condVal ← condition.generate
      choice condVal thenExpr.generate elseExpr.generate fun thenV thenEnd elseV elseEnd ↦
        emit (.phi [(thenV, thenEnd), (elseV, elseEnd)])) := by
  rw [ASTExpr.generate]
  rfl

theorem generate_ifStmt (n : NodeId) (condition : ASTExpr) (thenStmt : ASTStmt)
    (elseStmt : Option ASTStmt) : (ASTStmt.ifStmt n condition thenStmt elseStmt).generate = (do
      let condVal ← condition.generate
      choice condVal thenStmt.generate (ASTStmt.generateElse elseStmt) fun _ _ _ _ ↦ callNop) := by
  rw [ASTStmt.generate]
  simp only [choice, getInsertBlock_bind]

/-! ### Checks -/

/-- The code where an index is out of bounds. -/
def outOfBounds : Generate Unit := do
  let error ← intrinsic .error
  emitUnit (.call (.function error) [.const 0])

/-- The address of an element. -/
def elementAddress (arrayPtr indexVal : Operand) : Generate Operand := do
  let adjustedIndex ← emit (.binary .add indexVal (.const 1))
  emit (.elementPtr arrayPtr adjustedIndex)

/-- The value for an element, with its address and the block that this was computed in. -/
def finishElement (isLValue : Bool) (elementPtr : Operand) (inBounds : Label) : Generate Operand :=
  if isLValue then emit (.phi [(elementPtr, inBounds)]) else emit (.load elementPtr)

theorem generateElement_eq (isLValue : Bool) (arrayPtr length indexVal : Operand) :
    generateElement isLValue arrayPtr length indexVal = (do
      let isIndexNegative ← emit (.icmp .slt indexVal (.const 0))
      let isIndexTooLarge ← emit (.icmp .sge indexVal length)
      let isOutOfBounds ← emit (.binary .or isIndexNegative isIndexTooLarge)
      check isOutOfBounds outOfBounds (elementAddress arrayPtr indexVal) (finishElement isLValue)) := by
  simp only [generateElement, check, outOfBounds, elementAddress, finishElement, bind_assoc]

/-! ### Loops -/

/-- The loop that fills an array. -/
theorem generate_arrayOfExpr (n : NodeId) (e1 e2 : ASTExpr) :
    (ASTExpr.arrayOfExpr n e1 e2).generate = (do
      let s ← get
      Run.emit (.entered (.arrayOfExpr n e1 e2) s.lValueGen s.allocFlag)
      let sizeValue ← e1.generate
      let numItems ← emit (.binary .add sizeValue (.const 1))
      let int64Ptr ← callCalloc numItems (.const 8)
      emitUnit (.store sizeValue int64Ptr)
      let indexPtr ← emit (.alloca .int)
      emitUnit (.store (.const 1) indexPtr)
      loop (pure ()) (fun _ ↦ do
        let currentIndex ← emit (.load indexPtr)
        let loopCond ← emit (.icmp .sle currentIndex sizeValue)
        return (currentIndex, loopCond)) Prod.snd (fun _ (currentIndex, _) ↦ do
        let elementValue ← e2.generate
        let elementPtr ← emit (.elementPtr int64Ptr currentIndex)
        emitUnit (.store elementValue elementPtr)
        let nextIndex ← emit (.binary .add currentIndex (.const 1))
        emitUnit (.store nextIndex indexPtr)) fun _ _ ↦ emit (.ptrToInt int64Ptr)) := by
  rw [ASTExpr.generate]
  simp only [loop, bind_assoc, pure_bind]

theorem generate_whileStmt (n : NodeId) (condition : ASTExpr) (body : ASTStmt) :
    (ASTStmt.whileStmt n condition body).generate =
      loop (pure ()) (fun _ ↦ do
        let condVal ← condition.generate
        emit (.icmp .ne condVal (.const 0))) id (fun _ _ ↦ body.generate) fun _ _ ↦ callNop := by
  rw [ASTStmt.generate]
  simp only [loop, branchOn, bind_assoc, pure_bind, id_eq]

/-- What a `for` over a range does before the loop: the address of the item, the end and the
increment. -/
def startRange (item rangeStart rangeEnd : ASTExpr) (increment : Option ASTExpr) :
    Generate (Operand × Operand × Operand) := do
  let itemV ← address item item.generate
  let (startV, endV, incrementV) ← generateRange rangeStart rangeEnd increment
  emitUnit (.store startV itemV)
  return (itemV, endV, incrementV)

theorem generate_forRange (n : NodeId) (item rangeStart rangeEnd : ASTExpr)
    (increment : Option ASTExpr) (body : ASTStmt) :
    (ASTStmt.forStmt n item (.range rangeStart rangeEnd increment) body).generate =
      loop (startRange item rangeStart rangeEnd increment) (fun (itemV, endV, _) ↦ do
        let itemVal ← emit (.load itemV)
        emit (.icmp .slt itemVal endV)) id (fun (itemV, _, incrementV) _ ↦ do
        body.generate
        let currentItemV ← emit (.load itemV)
        let nextItemV ← emit (.binary .add currentItemV incrementV)
        emitUnit (.store nextItemV itemV)) fun _ _ ↦ callNop := by
  rw [ASTStmt.generate]
  simp only [loop, startRange, bind_assoc, pure_bind, id_eq]

/-- What a `for` over an array does before the loop: the address of the item, the slot of the index,
the address of the array and its length. -/
def startIterator (item iterator : ASTExpr) :
    Generate (Operand × Operand × Operand × Operand) := do
  let itemV ← address item item.generate
  let iteratorV ← iterator.generate
  let indexV ← emit (.alloca .int)
  emitUnit (.store (.const 1) indexV)
  let arrayPtr ← emit (.intToPtr iteratorV)
  let length ← emit (.load arrayPtr)
  return (itemV, indexV, arrayPtr, length)

theorem generate_forIterator (n : NodeId) (item iterator : ASTExpr) (body : ASTStmt) :
    (ASTStmt.forStmt n item (.iterator iterator) body).generate =
      loop (startIterator item iterator) (fun (_, indexV, _, length) ↦ do
        let curIndex ← emit (.load indexV)
        emit (.icmp .sle curIndex length)) id (fun (itemV, indexV, arrayPtr, _) _ ↦ do
        let currentIndexV ← emit (.load indexV)
        let elementPtr ← emit (.elementPtr arrayPtr currentIndexV)
        let elementValue ← emit (.load elementPtr)
        emitUnit (.store elementValue itemV)
        body.generate
        let nextIndexV ← emit (.binary .add currentIndexV (.const 1))
        emitUnit (.store nextIndexV indexV)) fun _ _ ↦ callNop := by
  rw [ASTStmt.generate]
  simp only [loop, startIterator, bind_assoc, pure_bind, id_eq]

end Sipc.Llvm
