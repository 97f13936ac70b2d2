import Sipc.Codegen.CodeGenFunctions

/-!
# What the code generator emits

Generating the code of an expression or a statement appends to the block of the insertion point and
makes new blocks; it touches no other block that existed before, and it ends at the insertion point
it started from or in a block it made (`IRBuilder.Extends`, `ASTExpr.codegen_extends`,
`ASTStmt.codegen_extends`). The equations of this module give the result of each method by the
results of the methods it calls, with the builders in between written out.
-/

set_option autoImplicit false
set_option relaxedAutoImplicit false

namespace Sipc

open IR

namespace IRBuilder

/-! ### The builder after each operation -/

/-- The builder after `insert`. -/
def inserted (b : IRBuilder) (i : Instruction) : IRBuilder :=
  { b with blocks := Function.update b.blocks b.insertBlock (b.blocks b.insertBlock ++ [i]) }

/-- The builder after `create`. -/
def created (b : IRBuilder) (i : Register → Instruction) : IRBuilder :=
  { b.inserted (i b.nextRegister) with nextRegister := b.nextRegister + 1 }

/-- The builder after three new blocks. -/
def withBlocks (b : IRBuilder) : IRBuilder :=
  { b with nextLabel := b.nextLabel + 3 }

/-- The builder after `setInsertPoint`. -/
def moveTo (b : IRBuilder) (l : ℕ) : IRBuilder :=
  { b with insertBlock := l }

section Fields

variable (b : IRBuilder) (i : Instruction) (f : Register → Instruction) (l : ℕ)

@[simp] theorem inserted_blocks : (b.inserted i).blocks =
    Function.update b.blocks b.insertBlock (b.blocks b.insertBlock ++ [i]) := rfl
@[simp] theorem inserted_nextLabel : (b.inserted i).nextLabel = b.nextLabel := rfl
@[simp] theorem inserted_nextRegister : (b.inserted i).nextRegister = b.nextRegister := rfl
@[simp] theorem inserted_insertBlock : (b.inserted i).insertBlock = b.insertBlock := rfl
@[simp] theorem inserted_namedValues : (b.inserted i).namedValues = b.namedValues := rfl
@[simp] theorem inserted_functionIndex : (b.inserted i).functionIndex = b.functionIndex := rfl

@[simp] theorem created_blocks :
    (b.created f).blocks = (b.inserted (f b.nextRegister)).blocks := rfl
@[simp] theorem created_nextLabel : (b.created f).nextLabel = b.nextLabel := rfl
@[simp] theorem created_nextRegister : (b.created f).nextRegister = b.nextRegister + 1 := rfl
@[simp] theorem created_insertBlock : (b.created f).insertBlock = b.insertBlock := rfl
@[simp] theorem created_namedValues : (b.created f).namedValues = b.namedValues := rfl
@[simp] theorem created_functionIndex : (b.created f).functionIndex = b.functionIndex := rfl

@[simp] theorem withBlocks_blocks : b.withBlocks.blocks = b.blocks := rfl
@[simp] theorem withBlocks_nextLabel : b.withBlocks.nextLabel = b.nextLabel + 3 := rfl
@[simp] theorem withBlocks_nextRegister : b.withBlocks.nextRegister = b.nextRegister := rfl
@[simp] theorem withBlocks_insertBlock : b.withBlocks.insertBlock = b.insertBlock := rfl
@[simp] theorem withBlocks_namedValues : b.withBlocks.namedValues = b.namedValues := rfl
@[simp] theorem withBlocks_functionIndex : b.withBlocks.functionIndex = b.functionIndex := rfl

@[simp] theorem moveTo_blocks : (b.moveTo l).blocks = b.blocks := rfl
@[simp] theorem moveTo_nextLabel : (b.moveTo l).nextLabel = b.nextLabel := rfl
@[simp] theorem moveTo_nextRegister : (b.moveTo l).nextRegister = b.nextRegister := rfl
@[simp] theorem moveTo_insertBlock : (b.moveTo l).insertBlock = l := rfl
@[simp] theorem moveTo_namedValues : (b.moveTo l).namedValues = b.namedValues := rfl
@[simp] theorem moveTo_functionIndex : (b.moveTo l).functionIndex = b.functionIndex := rfl

end Fields

section Run

variable {α β : Type}

/-- The result of two actions in a row. -/
theorem run_bind_eq_some {b : IRBuilder} {x : Codegen α} {f : α → Codegen β} {p : β × IRBuilder} :
    (x >>= f) b = some p ↔ ∃ a b₁, x b = some (a, b₁) ∧ f a b₁ = some p := by
  simp [bind, StateT.bind, Option.bind_eq_some_iff]

theorem run_bind_unit_eq_some {b : IRBuilder} {x : Codegen Unit} {f : Unit → Codegen β}
    {p : β × IRBuilder} :
    (x >>= f) b = some p ↔ ∃ b₁, x b = some ((), b₁) ∧ f () b₁ = some p := by
  rw [run_bind_eq_some]
  exact ⟨fun ⟨(), h⟩ ↦ h, fun h ↦ ⟨(), h⟩⟩

variable (b : IRBuilder)

theorem run_bind_get (f : IRBuilder → Codegen β) :
    ((get : Codegen IRBuilder) >>= f) b = f b b := rfl

theorem run_bind_insert (i : Instruction) (f : Unit → Codegen β) :
    (insert i >>= f) b = f () (b.inserted i) := rfl

theorem run_bind_create (i : Register → Instruction) (f : Operand → Codegen β) :
    (create i >>= f) b = f (.instr b.nextRegister) (b.created i) := rfl

theorem run_bind_createBlock (f : Label → Codegen β) :
    (createBlock >>= f) b = f b.nextLabel { b with nextLabel := b.nextLabel + 1 } := rfl

theorem run_bind_setInsertPoint (l : ℕ) (f : Unit → Codegen β) :
    (setInsertPoint l >>= f) b = f () (b.moveTo l) := rfl

theorem run_bind_getInsertBlock (f : Label → Codegen β) :
    (getInsertBlock >>= f) b = f b.insertBlock b := rfl

@[simp] theorem insert_run (i : Instruction) : insert i b = some ((), b.inserted i) := rfl

@[simp] theorem create_run (i : Register → Instruction) :
    create i b = some (.instr b.nextRegister, b.created i) := rfl

@[simp] theorem pure_run (a : α) : (pure a : Codegen α) b = some (a, b) := rfl

@[simp] theorem failure_run : (failure : Codegen α) b = none := rfl

end Run

/-! ### How the builder grows -/

/-- The insertion point is an existing block, blocks not made yet are empty, and the allocas of the
symbol table are registers in use. -/
structure WellFormed (b : IRBuilder) : Prop where
  insertBlock_lt : b.insertBlock < b.nextLabel
  blocks_of_le : ∀ l : ℕ, b.nextLabel ≤ l → b.blocks l = []
  namedValues_lt : ∀ (x : String) (r : ℕ), b.namedValues x = some r → r < b.nextRegister

/-- The builder `b'` comes from `b` by appending at the insertion point and in new blocks. -/
structure Extends (b b' : IRBuilder) : Prop where
  wellFormed : b'.WellFormed
  blocks : ∀ l : ℕ, b.blocks l <+: b'.blocks l
  untouched : ∀ l : ℕ, l < b.nextLabel → l ≠ b.insertBlock → b'.blocks l = b.blocks l
  nextLabel_le : b.nextLabel ≤ b'.nextLabel
  nextRegister_le : b.nextRegister ≤ b'.nextRegister
  insertBlock : b'.insertBlock = b.insertBlock ∨ b.nextLabel ≤ b'.insertBlock
  namedValues : b'.namedValues = b.namedValues

theorem WellFormed.extends_refl {b : IRBuilder} (h : b.WellFormed) : b.Extends b :=
  ⟨h, fun _ ↦ List.prefix_rfl, fun _ _ _ ↦ rfl, le_rfl, le_rfl, .inl rfl, rfl⟩

theorem Extends.trans {b b' b'' : IRBuilder} (h : b.Extends b') (h' : b'.Extends b'') :
    b.Extends b'' where
  wellFormed := h'.wellFormed
  blocks l := (h.blocks l).trans (h'.blocks l)
  untouched l hl hne := by
    have hle := h.nextLabel_le
    rw [h'.untouched l (by omega), h.untouched l hl hne]
    rcases h.insertBlock with hins | hins
    · rw [hins]
      exact hne
    · omega
  nextLabel_le := h.nextLabel_le.trans h'.nextLabel_le
  nextRegister_le := h.nextRegister_le.trans h'.nextRegister_le
  insertBlock := by
    have hle := h.nextLabel_le
    rcases h'.insertBlock with hins | hins
    · rw [hins]
      exact h.insertBlock
    · exact .inr (by omega)
  namedValues := h'.namedValues.trans h.namedValues

theorem WellFormed.inserted {b : IRBuilder} (h : b.WellFormed) (i : Instruction) :
    b.Extends (b.inserted i) where
  wellFormed :=
    { insertBlock_lt := h.insertBlock_lt
      blocks_of_le := by
        intro l hl
        have hlt := h.insertBlock_lt
        simp only [inserted_nextLabel] at hl
        rw [inserted_blocks, Function.update_of_ne (show l ≠ b.insertBlock by omega)]
        exact h.blocks_of_le l hl
      namedValues_lt := h.namedValues_lt }
  blocks l := by
    by_cases hl : l = b.insertBlock
    · subst hl
      simp
    · rw [inserted_blocks, Function.update_of_ne hl]
  untouched l _ hne := by
    rw [inserted_blocks, Function.update_of_ne hne]
  nextLabel_le := le_rfl
  nextRegister_le := le_rfl
  insertBlock := .inl rfl
  namedValues := rfl

theorem WellFormed.created {b : IRBuilder} (h : b.WellFormed) (i : Register → Instruction) :
    b.Extends (b.created i) := by
  have hins := h.inserted (i b.nextRegister)
  exact
    { hins with
      wellFormed :=
        { hins.wellFormed with
          namedValues_lt := fun x r hx ↦ Nat.lt_succ_of_lt (h.namedValues_lt x r hx) }
      nextRegister_le := Nat.le_succ _ }

theorem WellFormed.withBlocks {b : IRBuilder} (h : b.WellFormed) : b.Extends b.withBlocks where
  wellFormed :=
    { insertBlock_lt := Nat.lt_add_right 3 h.insertBlock_lt
      blocks_of_le := fun l hl ↦ h.blocks_of_le l (by simp at hl; omega)
      namedValues_lt := h.namedValues_lt }
  blocks _ := List.prefix_rfl
  untouched _ _ _ := rfl
  nextLabel_le := Nat.le_add_right _ 3
  nextRegister_le := le_rfl
  insertBlock := .inl rfl
  namedValues := rfl

theorem Extends.inserted {b b' : IRBuilder} (h : b.Extends b') (i : Instruction) :
    b.Extends (b'.inserted i) :=
  h.trans (h.wellFormed.inserted i)

theorem Extends.created {b b' : IRBuilder} (h : b.Extends b') (i : Register → Instruction) :
    b.Extends (b'.created i) :=
  h.trans (h.wellFormed.created i)

/-- Moving to a block that was made on the way. -/
theorem Extends.moveTo {b b' : IRBuilder} (h : b.Extends b') {l : ℕ} (hl : b.nextLabel ≤ l)
    (hl' : l < b'.nextLabel) : b.Extends (b'.moveTo l) :=
  { h with
    wellFormed := { h.wellFormed with insertBlock_lt := hl' }
    insertBlock := .inr hl }

end IRBuilder

open IRBuilder

/-- The operand does not name a register from `n` on. -/
def IR.Operand.Below (n : ℕ) : Operand → Prop
  | .instr r => r < n
  | _ => True

theorem IR.Operand.Below.mono {n m : ℕ} {v : Operand} (h : v.Below n) (hle : n ≤ m) :
    v.Below m := by
  cases v with
  | instr r => exact Nat.lt_of_lt_of_le h hle
  | _ => trivial

/-! ### The equations of the methods -/

/-- The builder at the branch of a condition with the value `condVal`, before the branches: the
comparison, three new blocks and the conditional branch to the first two. -/
def IRBuilder.branched (b : IRBuilder) (condVal : Operand) : IRBuilder :=
  (b.created fun dst ↦ .icmp dst .ne condVal (.const 0)).withBlocks.inserted
    (.condBr (.instr b.nextRegister) b.nextLabel (b.nextLabel + 1))

/-- The builder at the header of a loop. -/
def IRBuilder.atHeader (b : IRBuilder) : IRBuilder :=
  (b.withBlocks.inserted (.br b.nextLabel)).moveTo b.nextLabel

/-- The builder at the body of a loop whose blocks start at `l`, after the code of its condition. -/
def IRBuilder.atBody (b : IRBuilder) (l : ℕ) (condVal : Operand) : IRBuilder :=
  ((b.created fun dst ↦ .icmp dst .ne condVal (.const 0)).inserted
    (.condBr (.instr b.nextRegister) (l + 1) (l + 2))).moveTo (l + 1)

/-- The builder that leaves a branch for the block `target` and goes on at `l`. -/
def IRBuilder.leave (b : IRBuilder) (target l : ℕ) : IRBuilder :=
  (b.inserted (.br target)).moveTo l

section Equations

variable {b b' : IRBuilder} {v : Operand} {lv : Bool}

theorem ASTExpr.codegen_variableExpr_of_some {n : NodeId} {name : String} {r : Register}
    (h : b.namedValues name = some r) :
    (variableExpr n name).codegen lv b =
      if lv then some (.instr r, b)
      else some (.instr b.nextRegister, b.created fun dst ↦ .load dst (.instr r)) := by
  rw [ASTExpr.codegen, run_bind_get]
  simp only [h]
  cases lv <;> rfl

theorem ASTExpr.codegen_variableExpr_of_none {n : NodeId} {name : String}
    (h : b.namedValues name = none) :
    (variableExpr n name).codegen lv b =
      (b.functionIndex name).map fun idx ↦ (.const (BitVec.ofNat 64 idx), b) := by
  rw [ASTExpr.codegen, run_bind_get]
  simp only [h]
  cases b.functionIndex name <;> rfl

theorem ASTExpr.codegen_binaryExpr {n : NodeId} {op : BinaryOp} {left right : ASTExpr} :
    (binaryExpr n op left right).codegen lv b = some (v, b') ↔
      ∃ l b₁, left.codegen lv b = some (l, b₁) ∧ ∃ r b₂, right.codegen lv b₁ = some (r, b₂) ∧
        op.codegen l r b₂ = some (v, b') := by
  simp only [ASTExpr.codegen, run_bind_eq_some]

theorem ASTExpr.codegen_notExpr {n : NodeId} {arg : ASTExpr} :
    (notExpr n arg).codegen lv b = some (v, b') ↔
      ∃ a b₁, arg.codegen lv b = some (a, b₁) ∧ .instr b₁.nextRegister = v ∧
        (b₁.created fun dst ↦ .binary dst .xor a (.const 1)) = b' := by
  simp only [ASTExpr.codegen, run_bind_eq_some, create_run, Option.some.injEq, Prod.mk.injEq]

theorem ASTExpr.codegen_negExpr {n : NodeId} {arg : ASTExpr} :
    (negExpr n arg).codegen lv b = some (v, b') ↔
      ∃ a b₁, arg.codegen lv b = some (a, b₁) ∧ .instr b₁.nextRegister = v ∧
        (b₁.created fun dst ↦ .binary dst .sub (.const 0) a) = b' := by
  simp only [ASTExpr.codegen, run_bind_eq_some, create_run, Option.some.injEq, Prod.mk.injEq]

theorem ASTExpr.codegen_ternaryExpr {n : NodeId} {c t e : ASTExpr} :
    (ternaryExpr n c t e).codegen lv b = some (v, b') ↔
      ∃ cv b₁, c.codegen lv b = some (cv, b₁) ∧
      ∃ tv b₂, t.codegen lv ((b₁.branched cv).moveTo b₁.nextLabel) = some (tv, b₂) ∧
      ∃ ev b₃, e.codegen lv (b₂.leave (b₁.nextLabel + 2) (b₁.nextLabel + 1)) = some (ev, b₃) ∧
        .instr b₃.nextRegister = v ∧
        ((b₃.leave (b₁.nextLabel + 2) (b₁.nextLabel + 2)).created fun dst ↦
          .phi dst [(tv, b₂.insertBlock), (ev, b₃.insertBlock)]) = b' := by
  simp only [ASTExpr.codegen, run_bind_eq_some (x := c.codegen lv), run_bind_create,
    run_bind_createBlock, run_bind_insert, run_bind_setInsertPoint, run_bind_getInsertBlock,
    run_bind_eq_some (x := t.codegen lv), run_bind_eq_some (x := e.codegen lv), create_run,
    Option.some.injEq, Prod.mk.injEq]
  exact Iff.rfl

theorem ASTStmt.codegen_assignStmt {n : NodeId} {lhs rhs : ASTExpr} :
    (assignStmt n lhs rhs).codegen b = some ((), b') ↔
      ∃ lv b₁, lhs.codegen true b = some (lv, b₁) ∧
      ∃ rv b₂, rhs.codegen false b₁ = some (rv, b₂) ∧ b₂.inserted (.store rv lv) = b' := by
  simp only [ASTStmt.codegen, run_bind_eq_some, insert_run, Option.some.injEq, Prod.mk.injEq,
    true_and]

theorem ASTStmt.codegen_updateStmt {n : NodeId} {arg : ASTExpr} {increment : Bool} :
    (updateStmt n arg increment).codegen b = some ((), b') ↔
      ∃ a b₁, arg.codegen true b = some (a, b₁) ∧
        ((b₁.created fun dst ↦ .load dst a).created fun dst ↦
          .binary dst (if increment then .add else .sub) (.instr b₁.nextRegister) (.const 1)).inserted
          (.store (.instr (b₁.nextRegister + 1)) a) = b' := by
  simp only [ASTStmt.codegen, run_bind_eq_some (x := arg.codegen true), run_bind_create, insert_run,
    created_nextRegister, Option.some.injEq, Prod.mk.injEq, true_and]

theorem ASTStmt.codegen_whileStmt {n : NodeId} {c : ASTExpr} {body : ASTStmt} :
    (whileStmt n c body).codegen b = some ((), b') ↔
      ∃ cv b₁, c.codegen false b.atHeader = some (cv, b₁) ∧
      ∃ b₂, body.codegen (b₁.atBody b.nextLabel cv) = some ((), b₂) ∧
        (b₂.leave b.nextLabel (b.nextLabel + 2)).inserted .callNop = b' := by
  simp only [ASTStmt.codegen, run_bind_eq_some (x := c.codegen false), run_bind_create,
    run_bind_createBlock, run_bind_insert, run_bind_setInsertPoint,
    run_bind_unit_eq_some (x := body.codegen), insert_run, Option.some.injEq, Prod.mk.injEq, true_and]
  exact Iff.rfl

theorem ASTStmt.codegen_ifStmt {n : NodeId} {c : ASTExpr} {t : ASTStmt} {e : Option ASTStmt} :
    (ifStmt n c t e).codegen b = some ((), b') ↔
      ∃ cv b₁, c.codegen false b = some (cv, b₁) ∧
      ∃ b₂, t.codegen ((b₁.branched cv).moveTo b₁.nextLabel) = some ((), b₂) ∧
      ∃ b₃, codegenElse e (b₂.leave (b₁.nextLabel + 2) (b₁.nextLabel + 1)) = some ((), b₃) ∧
        (b₃.leave (b₁.nextLabel + 2) (b₁.nextLabel + 2)).inserted .callNop = b' := by
  simp only [ASTStmt.codegen, run_bind_eq_some (x := c.codegen false), run_bind_create,
    run_bind_createBlock, run_bind_insert, run_bind_setInsertPoint,
    run_bind_unit_eq_some (x := t.codegen), run_bind_unit_eq_some (x := codegenElse e), insert_run,
    Option.some.injEq, Prod.mk.injEq, true_and]
  exact Iff.rfl

theorem ASTStmt.codegen_outputStmt {n : NodeId} {arg : ASTExpr} :
    (outputStmt n arg).codegen b = some ((), b') ↔
      ∃ a b₁, arg.codegen false b = some (a, b₁) ∧ b₁.inserted (.callOutput a) = b' := by
  simp only [ASTStmt.codegen, run_bind_eq_some, insert_run, Option.some.injEq, Prod.mk.injEq,
    true_and]

theorem ASTStmt.codegenList_cons {s : ASTStmt} {stmts : List ASTStmt} :
    codegenList (s :: stmts) b = some ((), b') ↔
      ∃ b₁, s.codegen b = some ((), b₁) ∧ codegenList stmts b₁ = some ((), b') := by
  simp only [ASTStmt.codegenList, run_bind_unit_eq_some]

end Equations

/-- The instruction of an operator, or the predicate of its comparison. -/
def BinaryOp.instruction : BinaryOp → BinaryInstr ⊕ Predicate
  | .add => .inl .add
  | .sub => .inl .sub
  | .mul => .inl .mul
  | .div => .inl .sdiv
  | .mod => .inl .srem
  | .and => .inl .and
  | .or => .inl .or
  | .gt => .inr .sgt
  | .ge => .inr .sge
  | .lt => .inr .slt
  | .le => .inr .sle
  | .eq => .inr .eq
  | .ne => .inr .ne

/-- The builder after the code of an operator. -/
def IRBuilder.afterOperator (b : IRBuilder) (l r : Operand) : BinaryInstr ⊕ Predicate → IRBuilder
  | .inl i => b.created fun dst ↦ .binary dst i l r
  | .inr p => (b.created fun dst ↦ .icmp dst p l r).created fun dst ↦ .zext dst (.instr b.nextRegister)

theorem BinaryOp.codegen_run (op : BinaryOp) (l r : Operand) (b : IRBuilder) :
    op.codegen l r b = some (.instr ((b.afterOperator l r op.instruction).nextRegister - 1),
      b.afterOperator l r op.instruction) := by
  cases op <;> rfl

/-! ### Generated code extends the builder -/

namespace IRBuilder

theorem WellFormed.afterOperator {b : IRBuilder} (h : b.WellFormed) (l r : Operand)
    (i : BinaryInstr ⊕ Predicate) : b.Extends (b.afterOperator l r i) := by
  cases i with
  | inl i => exact h.created fun dst ↦ .binary dst i l r
  | inr p =>
    have hcmp := h.created fun dst ↦ .icmp dst p l r
    exact hcmp.created fun dst ↦ .zext dst (.instr b.nextRegister)

theorem WellFormed.branched {b : IRBuilder} (h : b.WellFormed) (condVal : Operand) :
    b.Extends (b.branched condVal) := by
  have hcmp := h.created fun dst ↦ .icmp dst .ne condVal (.const 0)
  have hblocks := hcmp.trans hcmp.wellFormed.withBlocks
  exact hblocks.inserted _

theorem WellFormed.atHeader {b : IRBuilder} (h : b.WellFormed) : b.Extends b.atHeader :=
  (h.withBlocks.inserted _).moveTo le_rfl (by simp)

/-- Leaving a branch for a block that was made on the way. -/
theorem Extends.leave {b b' : IRBuilder} (h : b.Extends b') (target : ℕ) {l : ℕ}
    (hl : b.nextLabel ≤ l) (hl' : l < b'.nextLabel) : b.Extends (b'.leave target l) :=
  (h.inserted _).moveTo hl hl'

@[simp] theorem branched_nextLabel (b : IRBuilder) (v : Operand) :
    (b.branched v).nextLabel = b.nextLabel + 3 := rfl
@[simp] theorem branched_nextRegister (b : IRBuilder) (v : Operand) :
    (b.branched v).nextRegister = b.nextRegister + 1 := rfl
@[simp] theorem atHeader_nextLabel (b : IRBuilder) : b.atHeader.nextLabel = b.nextLabel + 3 := rfl
@[simp] theorem leave_nextLabel (b : IRBuilder) (target l : ℕ) :
    (b.leave target l).nextLabel = b.nextLabel := rfl

end IRBuilder

/-- The second branch of a conditional, after the code of the first. -/
theorem IRBuilder.WellFormed.afterThen {b b₂ : IRBuilder} {cv : Operand} (h : b.WellFormed)
    (h₂ : ((b.branched cv).moveTo b.nextLabel).Extends b₂) :
    b.Extends (b₂.leave (b.nextLabel + 2) (b.nextLabel + 1)) := by
  have hle₂ := h₂.nextLabel_le
  simp only [moveTo_nextLabel, branched_nextLabel] at hle₂
  have hbr := (h.branched cv).moveTo (l := b.nextLabel) le_rfl (by simp)
  exact (hbr.trans h₂).leave (b.nextLabel + 2) (by omega) (by omega)

/-- The branches of a conditional, which start in the blocks `b₁.nextLabel` and the next one and go
on in the third. -/
theorem IRBuilder.Extends.branches {b b₁ b₂ b₃ : IRBuilder} {cv : Operand} (h₁ : b.Extends b₁)
    (h₂ : ((b₁.branched cv).moveTo b₁.nextLabel).Extends b₂)
    (h₃ : (b₂.leave (b₁.nextLabel + 2) (b₁.nextLabel + 1)).Extends b₃) :
    b.Extends (b₃.leave (b₁.nextLabel + 2) (b₁.nextLabel + 2)) := by
  have hle := h₁.nextLabel_le
  have hle₂ := h₂.nextLabel_le
  have hle₃ := h₃.nextLabel_le
  simp only [moveTo_nextLabel, branched_nextLabel, leave_nextLabel] at hle₂ hle₃
  exact ((h₁.trans (h₁.wellFormed.afterThen h₂)).trans h₃).leave (b₁.nextLabel + 2) (by omega)
    (by omega)

theorem IRBuilder.Extends.insertBlock_ne {b b' : IRBuilder} (h : b.Extends b') {l : ℕ}
    (hl : l < b.nextLabel) (hne : l ≠ b.insertBlock) : l ≠ b'.insertBlock := by
  rcases h.insertBlock with hins | hins <;> omega

/-- A block that is left alone on the way is still empty after the jump out of the last block. -/
theorem IRBuilder.Extends.leave_blocks {b b' : IRBuilder} (h : b.Extends b') {l : ℕ}
    (hl : l < b.nextLabel) (hne : l ≠ b.insertBlock) (hnil : b.blocks l = []) (target l' : ℕ) :
    (b'.leave target l').blocks l = [] := by
  change Function.update b'.blocks b'.insertBlock (b'.blocks b'.insertBlock ++ [.br target]) l = []
  rw [Function.update_of_ne (h.insertBlock_ne hl hne), h.untouched l hl hne, hnil]

section Branches

variable {b b₁ b₂ b₃ : IRBuilder} {cv : Operand}

/-- The three blocks of a conditional are empty at its branch. -/
theorem IRBuilder.WellFormed.branched_blocks (h : b.WellFormed) (cv : Operand) {l : ℕ}
    (hl : b.nextLabel ≤ l) : (b.branched cv).blocks l = [] := by
  have hlt := h.insertBlock_lt
  simp only [IRBuilder.branched, inserted_blocks, withBlocks_blocks, withBlocks_insertBlock,
    created_insertBlock, created_blocks]
  rw [Function.update_of_ne (show l ≠ b.insertBlock by omega),
    Function.update_of_ne (show l ≠ b.insertBlock by omega)]
  exact h.blocks_of_le l hl

/-- Nothing is in the second branch when its code is generated. -/
theorem IRBuilder.Extends.elseBlock_eq_nil (h₁ : b₁.WellFormed)
    (h₂ : ((b₁.branched cv).moveTo b₁.nextLabel).Extends b₂) :
    (b₂.leave (b₁.nextLabel + 2) (b₁.nextLabel + 1)).blocks (b₁.nextLabel + 1) = [] :=
  h₂.leave_blocks (by simp) (by simp) (h₁.branched_blocks cv (by omega)) _ _

/-- Nothing is in the block that joins the branches when they are generated. -/
theorem IRBuilder.Extends.mergeBlock_eq_nil (h₁ : b₁.WellFormed)
    (h₂ : ((b₁.branched cv).moveTo b₁.nextLabel).Extends b₂)
    (h₃ : (b₂.leave (b₁.nextLabel + 2) (b₁.nextLabel + 1)).Extends b₃) :
    (b₃.leave (b₁.nextLabel + 2) (b₁.nextLabel + 2)).blocks (b₁.nextLabel + 2) = [] := by
  have hle := h₂.nextLabel_le
  simp only [moveTo_nextLabel, branched_nextLabel] at hle
  refine h₃.leave_blocks (by simp only [leave_nextLabel]; omega) ?_ ?_ _ _
  · change b₁.nextLabel + 2 ≠ b₁.nextLabel + 1
    omega
  · exact h₂.leave_blocks (by simp) (by simp) (h₁.branched_blocks cv (by omega)) _ _

/-- The branches end in different blocks. -/
theorem IRBuilder.Extends.insertBlock_ne_of_branches
    (h₂ : ((b₁.branched cv).moveTo b₁.nextLabel).Extends b₂)
    (h₃ : (b₂.leave (b₁.nextLabel + 2) (b₁.nextLabel + 1)).Extends b₃) :
    b₂.insertBlock ≠ b₃.insertBlock := by
  have hlt := h₂.wellFormed.insertBlock_lt
  refine h₃.insertBlock_ne (l := b₂.insertBlock) hlt ?_
  change b₂.insertBlock ≠ b₁.nextLabel + 1
  exact (h₂.insertBlock_ne (l := b₁.nextLabel + 1) (by simp) (by simp)).symm

end Branches

section Loop

variable {b b₁ b₂ : IRBuilder} {cv : Operand}

/-- The body of the loop whose three blocks start at `b.nextLabel`. -/
theorem IRBuilder.WellFormed.atBody (h : b.WellFormed) (h₁ : b.atHeader.Extends b₁) (cv : Operand) :
    b.Extends (b₁.atBody b.nextLabel cv) := by
  have hle₁ := h₁.nextLabel_le
  simp only [atHeader_nextLabel] at hle₁
  have hcmp := (h.atHeader.trans h₁).created fun dst ↦ .icmp dst .ne cv (.const 0)
  exact (hcmp.inserted
    (.condBr (.instr b₁.nextRegister) (b.nextLabel + 1) (b.nextLabel + 2))).moveTo
      (l := b.nextLabel + 1) (by omega) (by simp; omega)

/-- The exit of the loop. -/
theorem IRBuilder.WellFormed.atExit (h : b.WellFormed) (h₁ : b.atHeader.Extends b₁)
    (h₂ : (b₁.atBody b.nextLabel cv).Extends b₂) :
    b.Extends (b₂.leave b.nextLabel (b.nextLabel + 2)) := by
  have hle₁ := h₁.nextLabel_le
  simp only [atHeader_nextLabel] at hle₁
  have hle₂ := h₂.nextLabel_le
  change b₁.nextLabel ≤ b₂.nextLabel at hle₂
  exact ((h.atBody h₁ cv).trans h₂).leave b.nextLabel (by omega) (by omega)

/-- The three blocks of a loop are empty at its header. -/
theorem IRBuilder.WellFormed.atHeader_blocks (h : b.WellFormed) {l : ℕ} (hl : b.nextLabel ≤ l) :
    b.atHeader.blocks l = [] := by
  have hlt := h.insertBlock_lt
  change Function.update b.blocks b.insertBlock _ l = []
  rw [Function.update_of_ne (show l ≠ b.insertBlock by omega)]
  exact h.blocks_of_le l hl

/-- The body and the exit of a loop are empty after the code of its condition. -/
theorem IRBuilder.Extends.atBody_blocks (h : b.WellFormed) (h₁ : b.atHeader.Extends b₁) {l : ℕ}
    (hl : b.nextLabel < l) (hl' : l < b.nextLabel + 3) :
    (b₁.atBody b.nextLabel cv).blocks l = [] := by
  have hins : b.atHeader.insertBlock = b.nextLabel := rfl
  have hne := h₁.insertBlock_ne (l := l) (by simpa using hl') (by omega)
  simp only [IRBuilder.atBody, moveTo_blocks, inserted_blocks, created_insertBlock, created_blocks]
  rw [Function.update_of_ne hne, Function.update_of_ne hne,
    h₁.untouched l (by simpa using hl') (by omega)]
  exact h.atHeader_blocks (by omega)

/-- Nothing is in the exit of a loop when its body is generated. -/
theorem IRBuilder.Extends.exitBlock_eq_nil (h : b.WellFormed) (h₁ : b.atHeader.Extends b₁)
    (h₂ : (b₁.atBody b.nextLabel cv).Extends b₂) :
    (b₂.leave b.nextLabel (b.nextLabel + 2)).blocks (b.nextLabel + 2) = [] := by
  have hle := h₁.nextLabel_le
  simp only [atHeader_nextLabel] at hle
  refine h₂.leave_blocks ?_ ?_ (h₁.atBody_blocks h (by omega) (by omega)) _ _
  · change b.nextLabel + 2 < b₁.nextLabel
    omega
  · change b.nextLabel + 2 ≠ b.nextLabel + 1
    omega

end Loop

/-- Generating an expression extends the builder, and its value is computed by then. -/
theorem ASTExpr.codegen_extends {lv : Bool} : ∀ (e : ASTExpr) {b b' : IRBuilder} {v : Operand},
    e.codegen lv b = some (v, b') → b.WellFormed → b.Extends b' ∧ v.Below b'.nextRegister
  | .numberExpr _ val, b, b', v, h, hb => by
    cases h
    exact ⟨hb.extends_refl, trivial⟩
  | .boolExpr _ val, b, b', v, h, hb => by
    cases h
    exact ⟨hb.extends_refl, trivial⟩
  | .variableExpr n name, b, b', v, h, hb => by
    cases hname : b.namedValues name with
    | some r =>
      rw [ASTExpr.codegen_variableExpr_of_some hname] at h
      split_ifs at h <;> cases h
      · exact ⟨hb.extends_refl, hb.namedValues_lt name r hname⟩
      · exact ⟨hb.created _, Nat.lt_succ_self _⟩
    | none =>
      rw [ASTExpr.codegen_variableExpr_of_none hname] at h
      cases hidx : b.functionIndex name with
      | some idx =>
        rw [hidx] at h
        cases h
        exact ⟨hb.extends_refl, trivial⟩
      | none =>
        rw [hidx] at h
        cases h
  | .binaryExpr _ op left right, b, b', v, h, hb => by
    obtain ⟨l, b₁, hl, r, b₂, hr, hop⟩ := ASTExpr.codegen_binaryExpr.1 h
    rw [BinaryOp.codegen_run] at hop
    cases hop
    have h₁ := (left.codegen_extends hl hb).1
    have h₂ := (right.codegen_extends hr h₁.wellFormed).1
    refine ⟨(h₁.trans h₂).trans (h₂.wellFormed.afterOperator l r _), ?_⟩
    cases op.instruction <;> simp [IRBuilder.afterOperator, Operand.Below]
  | .notExpr _ arg, b, b', v, h, hb => by
    obtain ⟨a, b₁, ha, rfl, rfl⟩ := ASTExpr.codegen_notExpr.1 h
    have h₁ := (arg.codegen_extends ha hb).1
    exact ⟨h₁.created _, Nat.lt_succ_self _⟩
  | .negExpr _ arg, b, b', v, h, hb => by
    obtain ⟨a, b₁, ha, rfl, rfl⟩ := ASTExpr.codegen_negExpr.1 h
    have h₁ := (arg.codegen_extends ha hb).1
    exact ⟨h₁.created _, Nat.lt_succ_self _⟩
  | .ternaryExpr _ c t e, b, b', v, h, hb => by
    obtain ⟨cv, b₁, hc, tv, b₂, ht, ev, b₃, he, rfl, rfl⟩ := ASTExpr.codegen_ternaryExpr.1 h
    have h₁ := (c.codegen_extends hc hb).1
    have hbr := (h₁.wellFormed.branched cv).moveTo (l := b₁.nextLabel) le_rfl (by simp)
    have h₂ := (t.codegen_extends ht hbr.wellFormed).1
    have hlv := h₁.wellFormed.afterThen h₂
    have h₃ := (e.codegen_extends he hlv.wellFormed).1
    have hall := h₁.branches h₂ h₃
    exact ⟨hall.created _, Nat.lt_succ_self _⟩
  | .inputExpr _, _, _, _, h, _ | .nullExpr _, _, _, _, h, _ | .funAppExpr _ _ _, _, _, _, h, _
  | .allocExpr _ _, _, _, _, h, _ | .refExpr _ _, _, _, _, h, _ | .deRefExpr _ _, _, _, _, h, _
  | .recordExpr _ _, _, _, _, h, _ | .accessExpr _ _ _, _, _, _, h, _
  | .arrayExpr _ _, _, _, _, h, _ | .arrayOfExpr _ _ _, _, _, _, h, _
  | .indexingExpr _ _ _, _, _, _, h, _ | .arrayLenExpr _ _, _, _, _, h, _ => by cases h

mutual

/-- Generating a statement extends the builder. -/
theorem ASTStmt.codegen_extends : ∀ (s : ASTStmt) {b b' : IRBuilder},
    s.codegen b = some ((), b') → b.WellFormed → b.Extends b'
  | .assignStmt _ lhs rhs, b, b', h, hb => by
    obtain ⟨lv, b₁, hl, rv, b₂, hr, rfl⟩ := ASTStmt.codegen_assignStmt.1 h
    have h₁ := (lhs.codegen_extends hl hb).1
    have h₂ := (rhs.codegen_extends hr h₁.wellFormed).1
    exact (h₁.trans h₂).inserted _
  | .updateStmt _ arg increment, b, b', h, hb => by
    obtain ⟨a, b₁, ha, rfl⟩ := ASTStmt.codegen_updateStmt.1 h
    have h₁ := (arg.codegen_extends ha hb).1
    exact ((h₁.created _).created _).inserted _
  | .blockStmt _ [], b, b', h, hb => by
    simp only [ASTStmt.codegen, insert_run, Option.some.injEq, Prod.mk.injEq, true_and] at h
    subst h
    exact hb.inserted _
  | .blockStmt _ (s :: stmts), b, b', h, hb => by
    simp only [ASTStmt.codegen, run_bind_unit_eq_some] at h
    obtain ⟨b₁, hs, hstmts⟩ := h
    have h₁ := s.codegen_extends hs hb
    exact h₁.trans (ASTStmt.codegenList_extends stmts hstmts h₁.wellFormed)
  | .whileStmt _ c body, b, b', h, hb => by
    obtain ⟨cv, b₁, hc, b₂, hbody, rfl⟩ := ASTStmt.codegen_whileStmt.1 h
    have h₁ := (c.codegen_extends hc hb.atHeader.wellFormed).1
    have h₂ := body.codegen_extends hbody (hb.atBody h₁ cv).wellFormed
    exact (hb.atExit h₁ h₂).inserted _
  | .ifStmt _ c t e, b, b', h, hb => by
    obtain ⟨cv, b₁, hc, b₂, ht, b₃, he, rfl⟩ := ASTStmt.codegen_ifStmt.1 h
    have h₁ := (c.codegen_extends hc hb).1
    have hbr := (h₁.wellFormed.branched cv).moveTo (l := b₁.nextLabel) le_rfl (by simp)
    have h₂ := t.codegen_extends ht hbr.wellFormed
    have hlv := h₁.wellFormed.afterThen h₂
    have hall := h₁.branches h₂ (ASTStmt.codegenElse_extends e he hlv.wellFormed)
    exact hall.inserted _
  | .outputStmt _ arg, b, b', h, hb => by
    obtain ⟨a, b₁, ha, rfl⟩ := ASTStmt.codegen_outputStmt.1 h
    have h₁ := (arg.codegen_extends ha hb).1
    exact h₁.inserted _
  | .forStmt _ _ _ _, _, _, h, _ => by
    simp only [ASTStmt.codegen, failure_run, reduceCtorEq] at h
  | .errorStmt _ _, _, _, h, _ => by
    simp only [ASTStmt.codegen, failure_run, reduceCtorEq] at h

theorem ASTStmt.codegenElse_extends : ∀ (e : Option ASTStmt) {b b' : IRBuilder},
    ASTStmt.codegenElse e b = some ((), b') → b.WellFormed → b.Extends b'
  | some s, b, b', h, hb => by
    rw [ASTStmt.codegenElse] at h
    exact s.codegen_extends h hb
  | none, b, b', h, hb => by
    simp only [ASTStmt.codegenElse, insert_run, Option.some.injEq, Prod.mk.injEq, true_and] at h
    subst h
    exact hb.inserted _

theorem ASTStmt.codegenList_extends : ∀ (stmts : List ASTStmt) {b b' : IRBuilder},
    ASTStmt.codegenList stmts b = some ((), b') → b.WellFormed → b.Extends b'
  | [], b, b', h, hb => by
    simp only [ASTStmt.codegenList, pure_run, Option.some.injEq, Prod.mk.injEq, true_and] at h
    subst h
    exact hb.extends_refl
  | s :: stmts, b, b', h, hb => by
    obtain ⟨b₁, hs, hstmts⟩ := ASTStmt.codegenList_cons.1 h
    have h₁ := s.codegen_extends hs hb
    exact h₁.trans (ASTStmt.codegenList_extends stmts hstmts h₁.wellFormed)

end

end Sipc
