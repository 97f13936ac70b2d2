import Sipc.Codegen.EmittedCode
import Sipc.Codegen.ScalarSemantics

/-!
# The machine follows the evaluation of the tree

A point of the generated code is a builder `b` that the code of the function extends
(`IRBuilder.Within`), and the machine is at that point when it executes next what is inserted next
(`IRBuilder.At`). The variables are represented by the cells their allocas point to (`Represents`).
The code of an expression computes its value and keeps everything else (`ASTExpr.codegen_computes`).
The code of a statement follows its evaluation (`ASTStmt.codegen_follows`): if the evaluation is
done, the machine gets to the end of the code in the same state, and if it is cut off after `n` rounds
of a loop, the machine goes on for `n` steps with the same output.
-/

set_option autoImplicit false
set_option relaxedAutoImplicit false

namespace Sipc

open IR IRBuilder
open Machine (Reaches)

/-! ### The machine at a point of the generated code -/

section Position

variable {F : Blocks} {φ : Frame}

/-- The blocks of the builder are beginnings of the blocks of the function. -/
def IRBuilder.Within (F : Blocks) (b : IRBuilder) : Prop :=
  ∀ l : ℕ, b.blocks l <+: F l

/-- The machine is at the insertion point of the builder: it executes what will be inserted there. -/
structure IRBuilder.At (F : Blocks) (b : IRBuilder) (c : Config) : Prop where
  block : c.block = b.insertBlock
  rest : c.rest = (F b.insertBlock).drop (b.blocks b.insertBlock).length

theorem IRBuilder.Extends.within {b b' : IRBuilder} (h : b.Extends b') (h' : b'.Within F) :
    b.Within F :=
  fun l ↦ (h.blocks l).trans (h' l)

theorem IRBuilder.Within.of_inserted {b : IRBuilder} {i : Instruction} (h : (b.inserted i).Within F) :
    b.Within F := by
  intro l
  refine List.IsPrefix.trans ?_ (h l)
  by_cases hl : l = b.insertBlock
  · subst hl
    simp
  · rw [inserted_blocks, Function.update_of_ne hl]

theorem IRBuilder.Within.of_created {b : IRBuilder} {i : Register → Instruction}
    (h : (b.created i).Within F) : b.Within F :=
  Within.of_inserted (i := i b.nextRegister) h

theorem IRBuilder.Within.of_leave {b : IRBuilder} {target l : ℕ} (h : (b.leave target l).Within F) :
    b.Within F :=
  Within.of_inserted (i := .br target) h

/-- Inserted code is executed next. -/
theorem IRBuilder.At.inserted {b : IRBuilder} {c : Config} {i : Instruction} (hc : b.At F c)
    (h : (b.inserted i).Within F) :
    ∃ rest, c.rest = i :: rest ∧ (b.inserted i).At F (c.advance rest) := by
  have hpre := h b.insertBlock
  rw [inserted_blocks, Function.update_self] at hpre
  obtain ⟨rest, hrest⟩ := hpre
  refine ⟨rest, ?_, ?_⟩
  · rw [hc.rest, ← hrest, List.append_assoc, List.drop_left]
    rfl
  · refine ⟨hc.block, ?_⟩
    simp only [inserted_insertBlock, inserted_blocks, Function.update_self]
    rw [← hrest, List.drop_left]
    rfl

/-! ### What stays the same along an expression -/

/-- From `c` to `c'` the stack cells, the output and the registers below `n` stay the same. -/
structure IR.Config.Keeps (n : ℕ) (c c' : Config) : Prop where
  regs : ∀ r : ℕ, r < n → c'.regs r = c.regs r
  cells : c'.cells = c.cells
  out : c'.out = c.out

theorem IR.Config.Keeps.refl (n : ℕ) (c : Config) : c.Keeps n c :=
  ⟨fun _ _ ↦ rfl, rfl, rfl⟩

theorem IR.Config.Keeps.trans {n m : ℕ} {c d e : Config} (h : c.Keeps n d) (h' : d.Keeps m e)
    (hle : n ≤ m) : c.Keeps n e :=
  ⟨fun r hr ↦ (h'.regs r (by omega)).trans (h.regs r hr), h'.cells.trans h.cells,
    h'.out.trans h.out⟩

theorem IR.Config.Keeps.operand {n : ℕ} {c d : Config} (h : c.Keeps n d) {v : Operand}
    (hv : v.Below n) : d.operand φ v = c.operand φ v := by
  cases v with
  | instr r => exact h.regs r hv
  | _ => rfl

/-- From `c` the machine comes to the insertion point of `b'` and keeps what is below `n`; there
the operand has the value. -/
def Computes (F : Blocks) (φ : Frame) (n : ℕ) (b' : IRBuilder) (c : Config) (v : Operand)
    (val : Value) : Prop :=
  ∃ k c', Reaches (Config.step F φ) k c c' ∧ b'.At F c' ∧ c.Keeps n c' ∧
    c'.operand φ v = some val

/-- An instruction that sets its register to `u`. -/
theorem IRBuilder.At.created {b : IRBuilder} {c : Config} {i : Register → Instruction} {u : Value}
    (hc : b.At F c) (h : (b.created i).Within F)
    (hi : ∀ rest, Config.execute F φ (c.advance rest) (i b.nextRegister) =
      some (.next ((c.advance rest).set b.nextRegister u))) :
    Computes F φ b.nextRegister (b.created i) c (.instr b.nextRegister) u := by
  obtain ⟨rest, hrest, hat⟩ := hc.inserted (i := i b.nextRegister) h
  refine ⟨1, (c.advance rest).set b.nextRegister u, ?_, ⟨hat.block, hat.rest⟩,
    ⟨?_, rfl, rfl⟩, ?_⟩
  · apply Reaches.single
    rw [Config.step_of_rest hrest, hi rest]
    rfl
  · intro r hr
    exact Function.update_of_ne (show r ≠ b.nextRegister by omega) _ _
  · simp [Config.operand, Config.set]

/-- First one value, then, in what it leads to, another. -/
theorem Computes.bind {n m : ℕ} {b₁ b₂ : IRBuilder} {c : Config} {v v' : Operand}
    {val val' : Value} (h : Computes F φ n b₁ c v val) (hle : n ≤ m)
    (h' : ∀ c', b₁.At F c' → c.Keeps n c' → c'.operand φ v = some val →
      Computes F φ m b₂ c' v' val') : Computes F φ n b₂ c v' val' := by
  obtain ⟨k, c₁, hreach, hat, hkeep, hv⟩ := h
  obtain ⟨k', c₂, hreach', hat', hkeep', hv'⟩ := h' c₁ hat hkeep hv
  exact ⟨k + k', c₂, hreach.trans hreach', hat', hkeep.trans hkeep' hle, hv'⟩

/-- The start of a block. -/
def IR.Config.AtStart (F : Blocks) (l : ℕ) (c : Config) : Prop :=
  c.block = l ∧ c.rest = F l

theorem IR.Config.AtStart.at {b : IRBuilder} {c : Config} (h : c.AtStart F b.insertBlock)
    (hnil : b.blocks b.insertBlock = []) : b.At F c := by
  refine ⟨h.1, ?_⟩
  rw [hnil]
  exact h.2

/-- The jump out of a branch. -/
theorem IRBuilder.At.leave {b : IRBuilder} {c : Config} (hc : b.At F c) {target l n : ℕ}
    (h : (b.leave target l).Within F) :
    ∃ c', Reaches (Config.step F φ) 1 c c' ∧ c'.AtStart F target ∧ c'.prev = b.insertBlock ∧
      c.Keeps n c' := by
  obtain ⟨rest, hrest, -⟩ := hc.inserted (i := .br target) h
  refine ⟨(c.advance rest).goto F target, ?_, ⟨rfl, rfl⟩, hc.block,
    fun _ _ ↦ rfl, rfl, rfl⟩
  apply Reaches.single
  rw [Config.step_of_rest hrest]
  rfl

/-- The comparison of a condition and its branch to one of two blocks. -/
theorem IRBuilder.At.test {b : IRBuilder} {c : Config} (hc : b.At F c) {cv : Operand} {w : Word}
    (hw : c.operand φ cv = some (.i64 w)) {l l' : ℕ}
    (h : ((b.created fun dst ↦ .icmp dst .ne cv (.const 0)).inserted
      (.condBr (.instr b.nextRegister) l l')).Within F) :
    ∃ k c', Reaches (Config.step F φ) k c c' ∧ c'.AtStart F (if w ≠ 0 then l else l') ∧
      c.Keeps b.nextRegister c' := by
  obtain ⟨k, c₁, hreach, hat, hkeep, hv⟩ := hc.created (φ := φ) (u := .i1 (w != 0))
    (i := fun dst ↦ .icmp dst .ne cv (.const 0)) h.of_inserted (by
      intro rest
      simp [Config.execute, Config.word_of_operand hw, Predicate.eval])
  obtain ⟨rest, hrest, -⟩ := hat.inserted h
  refine ⟨k + 1, (c₁.advance rest).goto F (if w ≠ 0 then l else l'), ?_, ⟨rfl, rfl⟩,
    ⟨hkeep.regs, hkeep.cells, hkeep.out⟩⟩
  refine hreach.trans (Reaches.single ?_)
  rw [Config.step_of_rest hrest]
  simp [Config.execute, Config.bit_of_operand hv]

/-- A value computed after some steps that keep what is below `n`. -/
theorem Computes.after {n m k : ℕ} {b' : IRBuilder} {c c' : Config} {v : Operand} {val : Value}
    (hreach : Reaches (Config.step F φ) k c c') (hkeep : c.Keeps n c') (hle : n ≤ m)
    (h : Computes F φ m b' c' v val) : Computes F φ n b' c v val := by
  obtain ⟨k', c₂, hreach', hat, hkeep', hv⟩ := h
  exact ⟨k + k', c₂, hreach.trans hreach', hat, hkeep.trans hkeep' hle, hv⟩

/-- From the end of a branch control comes to the block that joins the branches, where `phi` chooses
the value of this branch. -/
theorem IRBuilder.At.phi {b b' : IRBuilder} {l' n : ℕ} {c : Config}
    {incoming : List (Operand × Label)} {v : Operand} {w : Word} (hc : b.At F c)
    (hF : (b.leave b'.insertBlock l').Within F)
    (hF' : (b'.created fun dst ↦ .phi dst incoming).Within F)
    (hnil : b'.blocks b'.insertBlock = []) (hle : n ≤ b'.nextRegister)
    (hv : c.operand φ v = some (.i64 w)) (hvn : v.Below n)
    (hfind : (incoming.find? fun p ↦ p.2 = b.insertBlock).map Prod.fst = some v) :
    Computes F φ n (b'.created fun dst ↦ .phi dst incoming) c (.instr b'.nextRegister)
      (.i64 w) := by
  obtain ⟨c₁, hreach, hstart, hprev, hkeep⟩ := hc.leave (φ := φ) (n := n) hF
  refine Computes.after hreach hkeep hle ?_
  refine (hstart.at hnil).created hF' fun rest ↦ ?_
  have hv₁ : c₁.operand φ v = some (.i64 w) := (hkeep.operand hvn).trans hv
  have hprev' : (c₁.advance rest).prev = b.insertBlock := hprev
  simp only [Config.execute, hprev', hfind, Option.bind_eq_bind, Option.bind_some,
    Config.word_advance, Config.word_of_operand hv₁]

end Position

/-! ### Expressions -/

/-- The variables are in the cells their allocas point to. -/
structure Represents (Γ : TypeContext) (addr : String → ℕ) (namedValues : String → Option Register)
    (env : Valuation) (c : Config) : Prop where
  stored : ∀ x τ, Γ x = some τ → ∃ r, namedValues x = some r ∧
    c.regs r = some (.ptr (addr x)) ∧ c.cells[addr x]? = some (some (env x))
  holds : ∀ x τ, Γ x = some τ → τ.Holds (env x)
  injective : ∀ x y, (Γ x).isSome → (Γ y).isSome → addr x = addr y → x = y

theorem BinaryOp.holds_eval {op : BinaryOp} {σ τ : ScalarType} (h : op.HasType σ τ) {l r w : Word}
    (hw : op.eval l r = some w) : τ.Holds w := by
  cases op <;> simp only [BinaryOp.HasType] at h <;> simp only [BinaryOp.eval] at hw
  case gt | ge | lt | le | eq | ne | and | or =>
    cases hw
    exact ScalarType.holds_ofBool τ _
  all_goals
    obtain ⟨-, rfl⟩ := h
    intro hb
    cases hb

/-- The value of an expression has its type. -/
theorem ASTExpr.holds_eval {Γ : TypeContext} {env : Valuation}
    (henv : ∀ x τ, Γ x = some τ → τ.Holds (env x)) : ∀ (e : ASTExpr) {τ : ScalarType} {w : Word},
    e.HasType Γ τ → e.eval env = some w → τ.Holds w
  | .numberExpr _ val, τ, w, ht, _ => by
    rw [ASTExpr.HasType] at ht
    subst ht
    intro hb
    cases hb
  | .boolExpr _ val, τ, w, _, hw => by
    rw [ASTExpr.eval] at hw
    cases hw
    exact τ.holds_ofBool val
  | .variableExpr _ name, τ, w, ht, hw => by
    rw [ASTExpr.HasType] at ht
    rw [ASTExpr.eval] at hw
    cases hw
    exact henv name τ ht
  | .binaryExpr _ op left right, τ, w, ht, hw => by
    rw [ASTExpr.HasType] at ht
    obtain ⟨σ, hop, -, -⟩ := ht
    simp only [ASTExpr.eval, Option.bind_eq_bind, Option.bind_eq_some_iff] at hw
    obtain ⟨l, -, r, -, hw⟩ := hw
    exact BinaryOp.holds_eval hop hw
  | .notExpr _ arg, τ, w, _, hw => by
    simp only [ASTExpr.eval, Option.bind_eq_bind, Option.bind_eq_some_iff] at hw
    obtain ⟨a, -, hw⟩ := hw
    cases hw
    exact τ.holds_ofBool _
  | .negExpr _ arg, τ, w, ht, _ => by
    rw [ASTExpr.HasType] at ht
    obtain ⟨rfl, -⟩ := ht
    intro hb
    cases hb
  | .ternaryExpr _ c t e, τ, w, ht, hw => by
    rw [ASTExpr.HasType] at ht
    simp only [ASTExpr.eval, Option.bind_eq_bind, Option.bind_eq_some_iff] at hw
    obtain ⟨cv, -, hw⟩ := hw
    split_ifs at hw
    · exact t.holds_eval henv ht.2.1 hw
    · exact e.holds_eval henv ht.2.2 hw
  | .inputExpr _, _, _, _, h | .nullExpr _, _, _, _, h | .funAppExpr _ _ _, _, _, _, h
  | .allocExpr _ _, _, _, _, h | .refExpr _ _, _, _, _, h | .deRefExpr _ _, _, _, _, h
  | .recordExpr _ _, _, _, _, h | .accessExpr _ _ _, _, _, _, h | .arrayExpr _ _, _, _, _, h
  | .arrayOfExpr _ _ _, _, _, _, h | .indexingExpr _ _ _, _, _, _, h
  | .arrayLenExpr _ _, _, _, _, h => by cases h

/-- The instruction of an operator, or its comparison, computes what the operator means. -/
theorem BinaryOp.instruction_eval {op : BinaryOp} {σ τ : ScalarType} (h : op.HasType σ τ)
    {l r : Word} (hl : σ.Holds l) (hr : σ.Holds r) :
    (∀ i, op.instruction = .inl i → i.eval l r = op.eval l r) ∧
      ∀ p, op.instruction = .inr p → op.eval l r = some (ofBool (p.eval l r)) := by
  cases op <;> simp only [BinaryOp.HasType] at h <;>
    simp only [BinaryOp.instruction, Sum.inl.injEq, Sum.inr.injEq, reduceCtorEq, false_imp_iff,
      implies_true, true_and, and_true, forall_eq']
  case add | sub | mul | div | mod => rfl
  case gt | ge | lt | le =>
    simp [BinaryOp.eval, Predicate.eval, BitVec.slt, BitVec.sle]
  case eq | ne =>
    simp [BinaryOp.eval, Predicate.eval, beq_eq_decide, bne]
  case and | or =>
    obtain ⟨rfl, -⟩ := h
    rcases hl rfl with rfl | rfl <;> rcases hr rfl with rfl | rfl <;> decide

section Expressions

variable {F : Blocks} {φ : Frame} {Γ : TypeContext} {addr : String → ℕ} {env : Valuation}

theorem Represents.of_keeps {b : IRBuilder} (hb : b.WellFormed) {c c' : Config}
    (h : Represents Γ addr b.namedValues env c) (hk : c.Keeps b.nextRegister c') :
    Represents Γ addr b.namedValues env c' where
  stored x τ hx := by
    obtain ⟨r, hr, hptr, hcell⟩ := h.stored x τ hx
    refine ⟨r, hr, ?_, ?_⟩
    · rw [hk.regs r (hb.namedValues_lt x r hr), hptr]
    · rw [hk.cells, hcell]
  holds := h.holds
  injective := h.injective

theorem Computes.const {b : IRBuilder} {c : Config} (hc : b.At F c) (w : Word) :
    Computes F φ b.nextRegister b c (.const w) (.i64 w) :=
  ⟨0, c, Reaches.refl _ _, hc, Config.Keeps.refl _ _, rfl⟩

/-- The code of an operator computes what the operator means. -/
theorem BinaryOp.codegen_computes {op : BinaryOp} {σ τ : ScalarType} (hop : op.HasType σ τ)
    {b : IRBuilder} {l r : Operand} {c : Config} {x y w : Word}
    (hF : (b.afterOperator l r op.instruction).Within F) (hc : b.At F c)
    (hl : c.operand φ l = some (.i64 x)) (hr : c.operand φ r = some (.i64 y)) (hx : σ.Holds x)
    (hy : σ.Holds y) (hw : op.eval x y = some w) :
    Computes F φ b.nextRegister (b.afterOperator l r op.instruction) c
      (.instr ((b.afterOperator l r op.instruction).nextRegister - 1)) (.i64 w) := by
  have heval := BinaryOp.instruction_eval hop hx hy
  cases hi : op.instruction with
  | inl i =>
    rw [hi] at hF
    change (b.created fun dst ↦ .binary dst i l r).Within F at hF
    refine hc.created hF fun rest ↦ ?_
    have hval : i.eval x y = some w := (heval.1 i hi).trans hw
    simp [Config.execute, Config.word_of_operand hl, Config.word_of_operand hr, hval]
  | inr p =>
    rw [hi] at hF
    change ((b.created fun dst ↦ .icmp dst p l r).created fun dst ↦
      .zext dst (.instr b.nextRegister)).Within F at hF
    have hval := heval.2 p hi
    rw [hw, Option.some.injEq] at hval
    have hcmp : Computes F φ b.nextRegister (b.created fun dst ↦ .icmp dst p l r) c
        (.instr b.nextRegister) (.i1 (p.eval x y)) := by
      refine hc.created (Within.of_created hF) fun rest ↦ ?_
      simp [Config.execute, Config.word_of_operand hl, Config.word_of_operand hr]
    refine hcmp.bind (Nat.le_succ _) fun c' hat _ hbit ↦ ?_
    refine hat.created hF fun rest ↦ ?_
    simp [Config.execute, Config.bit_of_operand hbit, hval, ofBool]

/-- The code of an expression computes its value. -/
theorem ASTExpr.codegen_computes : ∀ (e : ASTExpr) {τ : ScalarType} {b b' : IRBuilder}
    {v : Operand} {c : Config} {w : Word}, e.codegen false b = some (v, b') → b.WellFormed →
    b'.Within F → e.HasType Γ τ → b.At F c → Represents Γ addr b.namedValues env c →
    e.eval env = some w → Computes F φ b.nextRegister b' c v (.i64 w)
  | .numberExpr _ val, τ, b, b', v, c, w, h, _, _, _, hc, _, hw => by
    rw [ASTExpr.eval] at hw
    cases h
    cases hw
    exact Computes.const hc _
  | .boolExpr _ val, τ, b, b', v, c, w, h, _, _, _, hc, _, hw => by
    rw [ASTExpr.eval] at hw
    cases h
    cases hw
    exact Computes.const hc _
  | .variableExpr _ name, τ, b, b', v, c, w, h, _, hF, ht, hc, hrep, hw => by
    rw [ASTExpr.HasType] at ht
    rw [ASTExpr.eval] at hw
    cases hw
    obtain ⟨r, hr, hptr, hcell⟩ := hrep.stored name τ ht
    rw [ASTExpr.codegen_variableExpr_of_some hr] at h
    cases h
    refine hc.created hF fun rest ↦ ?_
    have hop : c.operand φ (.instr r) = some (.ptr (addr name)) := hptr
    simp [Config.execute, Config.cell_of_operand hop, hcell]
  | .binaryExpr _ op left right, τ, b, b', v, c, w, h, hb, hF, ht, hc, hrep, hw => by
    rw [ASTExpr.HasType] at ht
    obtain ⟨σ, hop, htl, htr⟩ := ht
    simp only [ASTExpr.eval, Option.bind_eq_bind, Option.bind_eq_some_iff] at hw
    obtain ⟨x, hx, y, hy, hw⟩ := hw
    obtain ⟨l, b₁, hl, r, b₂, hr, hcode⟩ := ASTExpr.codegen_binaryExpr.1 h
    rw [BinaryOp.codegen_run] at hcode
    cases hcode
    obtain ⟨h₁, hlb⟩ := left.codegen_extends hl hb
    obtain ⟨h₂, -⟩ := right.codegen_extends hr h₁.wellFormed
    have hF₂ : b₂.Within F := (h₂.wellFormed.afterOperator l r _).within hF
    have hleft := left.codegen_computes hl hb (h₂.within hF₂) htl hc hrep hx
    refine hleft.bind h₁.nextRegister_le fun c₁ hc₁ hk₁ hlv ↦ ?_
    have hrep₁ := hrep.of_keeps hb hk₁
    rw [← h₁.namedValues] at hrep₁
    have hright := right.codegen_computes hr h₁.wellFormed hF₂ htr hc₁ hrep₁ hy
    refine hright.bind h₂.nextRegister_le fun c₂ hc₂ hk₂ hrv ↦ ?_
    have hlv₂ : c₂.operand φ l = some (.i64 x) := (hk₂.operand hlb).trans hlv
    exact BinaryOp.codegen_computes hop hF hc₂ hlv₂ hrv
      (left.holds_eval hrep.holds htl hx) (right.holds_eval hrep.holds htr hy) hw
  | .notExpr _ arg, τ, b, b', v, c, w, h, hb, hF, ht, hc, hrep, hw => by
    rw [ASTExpr.HasType] at ht
    simp only [ASTExpr.eval, Option.bind_eq_bind, Option.bind_eq_some_iff] at hw
    obtain ⟨x, hx, hw⟩ := hw
    cases hw
    obtain ⟨a, b₁, ha, rfl, rfl⟩ := ASTExpr.codegen_notExpr.1 h
    obtain ⟨h₁, -⟩ := arg.codegen_extends ha hb
    have harg := arg.codegen_computes ha hb (Within.of_created hF) ht.2 hc hrep hx
    refine harg.bind h₁.nextRegister_le fun c₁ hc₁ _ hav ↦ ?_
    refine hc₁.created hF fun rest ↦ ?_
    have hxor : x ^^^ 1#64 = ofBool (decide (x = 0)) := by
      rcases arg.holds_eval hrep.holds ht.2 hx rfl with rfl | rfl <;> decide
    simp [Config.execute, Config.word_of_operand hav, BinaryInstr.eval, hxor]
  | .negExpr _ arg, τ, b, b', v, c, w, h, hb, hF, ht, hc, hrep, hw => by
    rw [ASTExpr.HasType] at ht
    simp only [ASTExpr.eval, Option.bind_eq_bind, Option.bind_eq_some_iff] at hw
    obtain ⟨x, hx, hw⟩ := hw
    cases hw
    obtain ⟨a, b₁, ha, rfl, rfl⟩ := ASTExpr.codegen_negExpr.1 h
    obtain ⟨h₁, -⟩ := arg.codegen_extends ha hb
    have harg := arg.codegen_computes ha hb (Within.of_created hF) ht.2 hc hrep hx
    refine harg.bind h₁.nextRegister_le fun c₁ hc₁ _ hav ↦ ?_
    refine hc₁.created hF fun rest ↦ ?_
    simp [Config.execute, Config.word_of_operand hav, BinaryInstr.eval]
  | .ternaryExpr _ ce te ee, τ, b, b', v, c, w, h, hb, hF, ht, hc, hrep, hw => by
    rw [ASTExpr.HasType] at ht
    obtain ⟨htc, htt, hte⟩ := ht
    simp only [ASTExpr.eval, Option.bind_eq_bind, Option.bind_eq_some_iff] at hw
    obtain ⟨x, hx, hw⟩ := hw
    obtain ⟨cv, b₁, hcc, tv, b₂, htcode, ev, b₃, hecode, rfl, rfl⟩ := ASTExpr.codegen_ternaryExpr.1 h
    obtain ⟨h₁, -⟩ := ce.codegen_extends hcc hb
    have hbr := (h₁.wellFormed.branched cv).moveTo (l := b₁.nextLabel) le_rfl (by simp)
    obtain ⟨h₂, htb⟩ := te.codegen_extends htcode hbr.wellFormed
    have hlv := h₁.wellFormed.afterThen h₂
    obtain ⟨h₃, heb⟩ := ee.codegen_extends hecode hlv.wellFormed
    -- the blocks of every builder on the way are beginnings of those of the function
    have hF₃ : (b₃.leave (b₁.nextLabel + 2) (b₁.nextLabel + 2)).Within F := Within.of_created hF
    have hF₂ : (b₂.leave (b₁.nextLabel + 2) (b₁.nextLabel + 1)).Within F :=
      h₃.within (Within.of_leave hF₃)
    have hF₁ : ((b₁.branched cv).moveTo b₁.nextLabel).Within F := h₂.within (Within.of_leave hF₂)
    have hcond := ce.codegen_computes hcc hb ((h₁.wellFormed.branched cv).within hF₁) htc hc hrep hx
    obtain ⟨k, c₁, hreach₁, hc₁, hk₁, hcv⟩ := hcond
    obtain ⟨k', c₂, hreach₂, hc₂, hk₂⟩ := hc₁.test hcv hF₁
    have hrep₁ := hrep.of_keeps hb hk₁
    rw [← h₁.namedValues] at hrep₁
    have hrep₂ := hrep₁.of_keeps h₁.wellFormed hk₂
    refine Computes.after hreach₁ hk₁ h₁.nextRegister_le (Computes.after hreach₂ hk₂ (Nat.le_succ _) ?_)
    have hmerge := Extends.mergeBlock_eq_nil h₁.wellFormed h₂ h₃
    have hne := Extends.insertBlock_ne_of_branches h₂ h₃
    by_cases hx0 : x ≠ 0
    · rw [if_pos hx0] at hw hc₂
      have hat₂ := hc₂.at (b := (b₁.branched cv).moveTo b₁.nextLabel)
        (h₁.wellFormed.branched_blocks cv le_rfl)
      have hthen := te.codegen_computes htcode hbr.wellFormed (Within.of_leave hF₂) htt hat₂
        hrep₂ hw
      refine hthen.bind h₂.nextRegister_le fun c₃ hc₃ _ htv ↦ ?_
      exact hc₃.phi hF₂ hF hmerge h₃.nextRegister_le htv htb (by simp)
    · rw [if_neg hx0] at hw hc₂
      have hat₂ := hc₂.at (b := b₂.leave (b₁.nextLabel + 2) (b₁.nextLabel + 1))
        (Extends.elseBlock_eq_nil h₁.wellFormed h₂)
      have hrep₃ : Represents Γ addr (b₂.leave (b₁.nextLabel + 2) (b₁.nextLabel + 1)).namedValues
          env c₂ := by
        rw [hlv.namedValues]
        exact hrep₂
      have helse := ee.codegen_computes hecode hlv.wellFormed (Within.of_leave hF₃) hte hat₂
        hrep₃ hw
      refine Computes.after (Reaches.refl _ _) (Config.Keeps.refl _ _) h₂.nextRegister_le ?_
      refine helse.bind h₃.nextRegister_le fun c₃ hc₃ _ hev ↦ ?_
      exact hc₃.phi hF₃ hF hmerge le_rfl hev heb (by simp [hne])
  | .inputExpr _, _, _, _, _, _, _, h, _, _, _, _, _, _
  | .nullExpr _, _, _, _, _, _, _, h, _, _, _, _, _, _
  | .funAppExpr _ _ _, _, _, _, _, _, _, h, _, _, _, _, _, _
  | .allocExpr _ _, _, _, _, _, _, _, h, _, _, _, _, _, _
  | .refExpr _ _, _, _, _, _, _, _, h, _, _, _, _, _, _
  | .deRefExpr _ _, _, _, _, _, _, _, h, _, _, _, _, _, _
  | .recordExpr _ _, _, _, _, _, _, _, h, _, _, _, _, _, _
  | .accessExpr _ _ _, _, _, _, _, _, _, h, _, _, _, _, _, _
  | .arrayExpr _ _, _, _, _, _, _, _, h, _, _, _, _, _, _
  | .arrayOfExpr _ _ _, _, _, _, _, _, _, h, _, _, _, _, _, _
  | .indexingExpr _ _ _, _, _, _, _, _, _, h, _, _, _, _, _, _
  | .arrayLenExpr _ _, _, _, _, _, _, _, h, _, _, _, _, _, _ => by cases h

end Expressions

/-! ### Statements -/

section Statements

variable {F : Blocks} {φ : Frame} {Γ : TypeContext} {addr : String → ℕ} {n : ℕ}

/-- The machine is at the insertion point of the builder, in the state `s`. -/
structure Matches (F : Blocks) (Γ : TypeContext) (addr : String → ℕ) (b : IRBuilder)
    (s : ScalarState) (c : Config) : Prop where
  position : b.At F c
  represents : Represents Γ addr b.namedValues s.env c
  out : c.out = s.out

/-- From `c` the machine does what the evaluation with the bound `n` came to: it gets to the insertion
point of `b'` in the final state, or it goes on for `n` steps with the output of the evaluation that
was cut off. -/
def Follows (F : Blocks) (φ : Frame) (Γ : TypeContext) (addr : String → ℕ) (n : ℕ) (b' : IRBuilder)
    (c : Config) : ScalarResult → Prop
  | .done s => ∃ k c', Reaches (Config.step F φ) k c c' ∧ Matches F Γ addr b' s c'
  | .undefined => True
  | .cutOff out => ∃ k c', n ≤ k ∧ Reaches (Config.step F φ) k c c' ∧ c'.out = out

theorem Follows.after {k : ℕ} {b' : IRBuilder} {c c' : Config} {r : ScalarResult}
    (hreach : Reaches (Config.step F φ) k c c') (h : Follows F φ Γ addr n b' c' r) :
    Follows F φ Γ addr n b' c r := by
  cases r with
  | done s =>
    obtain ⟨k', d, hreach', hm⟩ := h
    exact ⟨k + k', d, hreach.trans hreach', hm⟩
  | undefined => trivial
  | cutOff out =>
    obtain ⟨k', d, hle, hreach', hout⟩ := h
    exact ⟨k + k', d, by omega, hreach.trans hreach', hout⟩

/-- First one statement, then, from the state it is done in, another. -/
theorem Follows.andThen {b₁ b₂ : IRBuilder} {c : Config} {r : ScalarResult}
    {f : ScalarState → ScalarResult} (h : Follows F φ Γ addr n b₁ c r)
    (h' : ∀ s c', Matches F Γ addr b₁ s c' → Follows F φ Γ addr n b₂ c' (f s)) :
    Follows F φ Γ addr n b₂ c (r.andThen f) := by
  cases r with
  | done s =>
    obtain ⟨k, d, hreach, hm⟩ := h
    exact (h' s d hm).after hreach
  | undefined => trivial
  | cutOff out => exact h

/-- An inserted instruction that goes on in the block. -/
theorem IRBuilder.At.execute {b : IRBuilder} {c : Config} {i : Instruction} {P : Config → Prop}
    (hc : b.At F c) (hF : (b.inserted i).Within F)
    (hi : ∀ rest, ∃ c', Config.execute F φ (c.advance rest) i = some (.next c') ∧
      c'.block = c.block ∧ c'.rest = rest ∧ P c') :
    ∃ c', Reaches (Config.step F φ) 1 c c' ∧ (b.inserted i).At F c' ∧ P c' := by
  obtain ⟨rest, hrest, hat⟩ := hc.inserted hF
  obtain ⟨c', hexec, hblock, hrest', hP⟩ := hi rest
  refine ⟨c', Reaches.single ?_, ⟨hblock.trans hat.block, hrest'.trans hat.rest⟩, hP⟩
  rw [Config.step_of_rest hrest, hexec]
  rfl

theorem Represents.assign {b : IRBuilder} {env : Valuation} {c c' : Config}
    (h : Represents Γ addr b.namedValues env c) {x : String} {τ : ScalarType} {w : Word}
    (hx : Γ x = some τ) (hw : τ.Holds w) (hregs : c'.regs = c.regs)
    (hcells : c'.cells = c.cells.set (addr x) (some w)) :
    Represents Γ addr b.namedValues (Function.update env x w) c' where
  stored y σ hy := by
    obtain ⟨r, hr, hptr, hcell⟩ := h.stored y σ hy
    refine ⟨r, hr, by rw [hregs, hptr], ?_⟩
    rw [hcells]
    by_cases hxy : y = x
    · subst hxy
      obtain ⟨hlt, -⟩ := List.getElem?_eq_some_iff.1 hcell
      rw [Function.update_self, List.getElem?_set_self hlt]
    · have hne : addr x ≠ addr y := by
        intro heq
        exact hxy (h.injective x y (by simp [hx]) (by simp [hy]) heq).symm
      rw [Function.update_of_ne hxy, List.getElem?_set_ne hne, hcell]
  holds y σ hy := by
    by_cases hxy : y = x
    · subst hxy
      rw [hx] at hy
      cases hy
      rw [Function.update_self]
      exact hw
    · rw [Function.update_of_ne hxy]
      exact h.holds y σ hy
  injective := h.injective

/-- A store to the cell of a variable assigns it. -/
theorem Matches.store {b : IRBuilder} {s : ScalarState} {c : Config} {x : String} {τ : ScalarType}
    {r : Register} {v : Operand} {w : Word} (h : Matches F Γ addr b s c) (hx : Γ x = some τ)
    (hr : b.namedValues x = some r) (hv : c.operand φ v = some (.i64 w)) (hw : τ.Holds w)
    (hF : (b.inserted (.store v (.instr r))).Within F) :
    Follows F φ Γ addr n (b.inserted (.store v (.instr r))) c (.done (s.assign x w)) := by
  obtain ⟨r', hr', hptr, hcell⟩ := h.represents.stored x τ hx
  rw [hr] at hr'
  cases hr'
  have hp : c.operand φ (.instr r) = some (.ptr (addr x)) := hptr
  obtain ⟨hlt, -⟩ := List.getElem?_eq_some_iff.1 hcell
  obtain ⟨c', hreach, hat, hregs, hcells, hout⟩ := h.position.execute (φ := φ)
    (P := fun c' ↦ c'.regs = c.regs ∧ c'.cells = c.cells.set (addr x) (some w) ∧ c'.out = c.out)
    hF (by
      intro rest
      refine ⟨{ c.advance rest with cells := c.cells.set (addr x) (some w) }, ?_, rfl, rfl, rfl,
        rfl, rfl⟩
      simp [Config.execute, Config.word_of_operand hv, Config.cell_of_operand hp, hlt])
  exact ⟨1, c', hreach, hat, h.represents.assign hx hw hregs hcells, hout.trans h.out⟩

/-- First the value of an expression, then what is done with it. -/
theorem Matches.withValue {b b₁ b' : IRBuilder} {s : ScalarState} {c : Config} {e : ASTExpr}
    {τ : ScalarType} {v : Operand} {f : Word → ScalarResult} (h : Matches F Γ addr b s c)
    (hb : b.WellFormed) (hcode : e.codegen false b = some (v, b₁)) (hF : b₁.Within F)
    (ht : e.HasType Γ τ)
    (h' : ∀ w c', τ.Holds w → Matches F Γ addr b₁ s c' → c'.operand φ v = some (.i64 w) →
      Follows F φ Γ addr n b' c' (f w)) :
    Follows F φ Γ addr n b' c (.withValue (e.eval s.env) f) := by
  cases hw : e.eval s.env with
  | none => trivial
  | some w =>
    obtain ⟨k, c', hreach, hat, hkeep, hv⟩ :=
      e.codegen_computes (φ := φ) hcode hb hF ht h.position h.represents hw
    have hrep := h.represents.of_keeps hb hkeep
    rw [← (e.codegen_extends hcode hb).1.namedValues] at hrep
    exact (h' w c' (e.holds_eval h.represents.holds ht hw) ⟨hat, hrep, hkeep.out.trans h.out⟩
      hv).after hreach

/-- The state stays the same along steps that keep the registers and cells. -/
theorem Matches.of_keeps {b b' : IRBuilder} {s : ScalarState} {c c' : Config}
    (h : Matches F Γ addr b s c) (hb : b.WellFormed) (hkeep : c.Keeps b.nextRegister c')
    (hnames : b'.namedValues = b.namedValues) (hat : b'.At F c') : Matches F Γ addr b' s c' := by
  have hrep := h.represents.of_keeps hb hkeep
  rw [← hnames] at hrep
  exact ⟨hat, hrep, hkeep.out.trans h.out⟩

/-- The code of an empty statement. -/
theorem Matches.nop {b : IRBuilder} {s : ScalarState} {c : Config} (h : Matches F Γ addr b s c)
    (hb : b.WellFormed) (hF : (b.inserted .callNop).Within F) :
    Follows F φ Γ addr n (b.inserted .callNop) c (.done s) := by
  obtain ⟨c', hreach, hat, hkeep⟩ := h.position.execute (φ := φ)
    (P := fun c' ↦ c.Keeps b.nextRegister c') hF fun rest ↦
      ⟨c.advance rest, rfl, rfl, rfl, fun _ _ ↦ rfl, rfl, rfl⟩
  exact ⟨1, c', hreach, h.of_keeps hb hkeep rfl hat⟩

theorem Matches.output {b : IRBuilder} {s : ScalarState} {c : Config} {v : Operand} {w : Word}
    (h : Matches F Γ addr b s c) (hv : c.operand φ v = some (.i64 w))
    (hF : (b.inserted (.callOutput v)).Within F) :
    Follows F φ Γ addr n (b.inserted (.callOutput v)) c (.done { s with out := s.out ++ [w] }) := by
  obtain ⟨c', hreach, hat, hregs, hcells, hout⟩ := h.position.execute (φ := φ)
    (P := fun c' ↦ c'.regs = c.regs ∧ c'.cells = c.cells ∧ c'.out = c.out ++ [w]) hF fun rest ↦
      ⟨{ c.advance rest with out := c.out ++ [w] },
        by rw [Config.execute, Config.word_advance, Config.word_of_operand hv]; rfl, rfl, rfl, rfl,
        rfl, rfl⟩
  refine ⟨1, c', hreach, hat, ⟨?_, h.represents.holds, h.represents.injective⟩, ?_⟩
  · intro x τ hx
    rw [hregs, hcells]
    exact h.represents.stored x τ hx
  · rw [hout, h.out]

/-- The jump out of a branch to an empty block. -/
theorem Matches.leave {b d : IRBuilder} {s : ScalarState} {c : Config} {l' : ℕ}
    (h : Matches F Γ addr b s c) (hb : b.WellFormed) (hF : (b.leave d.insertBlock l').Within F)
    (hnames : d.namedValues = b.namedValues) (hnil : d.blocks d.insertBlock = []) :
    ∃ c', Reaches (Config.step F φ) 1 c c' ∧ Matches F Γ addr d s c' := by
  obtain ⟨c', hreach, hstart, -, hkeep⟩ := h.position.leave (φ := φ) (n := b.nextRegister) hF
  exact ⟨c', hreach, h.of_keeps hb hkeep hnames (hstart.at hnil)⟩

theorem Follows.mono {m : ℕ} {b' : IRBuilder} {c : Config} {r : ScalarResult}
    (h : Follows F φ Γ addr n b' c r) (hle : m ≤ n) : Follows F φ Γ addr m b' c r := by
  cases r with
  | done s => exact h
  | undefined => trivial
  | cutOff out =>
    obtain ⟨k, d, hk, hreach, hout⟩ := h
    exact ⟨k, d, hle.trans hk, hreach, hout⟩

/-- Every step on the way counts for the bound. -/
theorem Follows.after_step {b' : IRBuilder} {c c' : Config} {r : ScalarResult}
    (hreach : Reaches (Config.step F φ) 1 c c') (h : Follows F φ Γ addr n b' c' r) :
    Follows F φ Γ addr (n + 1) b' c r := by
  cases r with
  | done s =>
    obtain ⟨k', d, hreach', hm⟩ := h
    exact ⟨1 + k', d, hreach.trans hreach', hm⟩
  | undefined => trivial
  | cutOff out =>
    obtain ⟨k', d, hle, hreach', hout⟩ := h
    exact ⟨1 + k', d, by omega, hreach.trans hreach', hout⟩

/-- The comparison of a condition and the branch to the start of one of two empty blocks. -/
theorem Matches.test {b : IRBuilder} {s : ScalarState} {c : Config} {cv : Operand} {w : Word}
    (h : Matches F Γ addr b s c) (hb : b.WellFormed) (hw : c.operand φ cv = some (.i64 w)) {l l' : ℕ}
    (hF : ((b.created fun dst ↦ .icmp dst .ne cv (.const 0)).inserted
      (.condBr (.instr b.nextRegister) l l')).Within F) :
    ∃ k c', Reaches (Config.step F φ) k c c' ∧ ∀ b' : IRBuilder,
      b'.insertBlock = (if w ≠ 0 then l else l') → b'.namedValues = b.namedValues →
      b'.blocks b'.insertBlock = [] → Matches F Γ addr b' s c' := by
  obtain ⟨k, c', hreach, hstart, hkeep⟩ := h.position.test hw hF
  refine ⟨k, c', hreach, fun b' hins hnames hnil ↦ ?_⟩
  rw [← hins] at hstart
  exact h.of_keeps hb hkeep hnames (hstart.at hnil)

/-- The rounds of a `while`, each from its header: the induction is on the bound, and the jump back
to the header is the step that pays for a round. -/
theorem Matches.whileLoop {b b₁ b₂ : IRBuilder} {cond : ASTExpr} {cv : Operand}
    {body : ScalarState → ScalarResult} (hb : b.WellFormed)
    (hcode : cond.codegen false b.atHeader = some (cv, b₁)) (ht : cond.HasType Γ .bool)
    (h₂ : (b₁.atBody b.nextLabel cv).Extends b₂)
    (hF : ((b₂.leave b.nextLabel (b.nextLabel + 2)).inserted .callNop).Within F)
    (hbody : ∀ s c, Matches F Γ addr (b₁.atBody b.nextLabel cv) s c →
      Follows F φ Γ addr n b₂ c (body s)) :
    ∀ (m : ℕ) (s : ScalarState) (c : Config), m ≤ n → Matches F Γ addr b.atHeader s c →
      Follows F φ Γ addr m ((b₂.leave b.nextLabel (b.nextLabel + 2)).inserted .callNop) c
        (whileLoop (fun s ↦ cond.eval s.env) body m s) := by
  have h₁ := (cond.codegen_extends hcode hb.atHeader.wellFormed).1
  have hF₂ : (b₂.leave b.nextLabel (b.nextLabel + 2)).Within F := hF.of_inserted
  have hFbody : (b₁.atBody b.nextLabel cv).Within F := h₂.within (Within.of_leave hF₂)
  have hnames₁ : b₁.namedValues = b.namedValues := h₁.namedValues
  have hnames₂ : b₂.namedValues = b.namedValues := h₂.namedValues.trans hnames₁
  intro m
  induction m with
  | zero =>
    intro s c _ hc
    exact ⟨0, c, le_rfl, Reaches.refl _ _, hc.out⟩
  | succ m ih =>
    intro s c hm hc
    rw [Sipc.whileLoop]
    have hF₁ : b₁.Within F := Within.of_created (Within.of_inserted hFbody)
    refine hc.withValue hb.atHeader.wellFormed hcode hF₁ ht fun w c₁ _ hc₁ hw ↦ ?_
    obtain ⟨k, c₂, hreach, hc₂⟩ := hc₁.test h₁.wellFormed hw hFbody
    refine Follows.after hreach ?_
    by_cases hw0 : w ≠ 0
    · rw [if_pos hw0]
      have hstart := hc₂ (b₁.atBody b.nextLabel cv) (if_pos hw0).symm rfl
        (h₁.atBody_blocks hb (l := b.nextLabel + 1) (by omega) (by omega))
      refine ((hbody s c₂ hstart).mono hm).andThen fun s' c₃ hc₃ ↦ ?_
      obtain ⟨c₄, hback, hc₄⟩ := hc₃.leave (d := b.atHeader) (φ := φ) h₂.wellFormed hF₂
        hnames₂.symm (hb.atHeader_blocks le_rfl)
      exact (ih s' c₄ (by omega) hc₄).after_step hback
    · rw [if_neg hw0]
      have hstart := hc₂ (b₂.leave b.nextLabel (b.nextLabel + 2)) (if_neg hw0).symm
        (hnames₂.trans hnames₁.symm) (Extends.exitBlock_eq_nil hb h₁ h₂)
      exact hstart.nop (hb.atExit h₁ h₂).wellFormed hF

/-- The two branches of an `if` and the block that joins them. -/
theorem Matches.ifStmt {b b₁ b₂ b₃ : IRBuilder} {cond : ASTExpr} {cv : Operand} {s : ScalarState}
    {c : Config} {thenResult elseResult : ScalarState → ScalarResult} (hc : Matches F Γ addr b s c)
    (hb : b.WellFormed) (hcode : cond.codegen false b = some (cv, b₁)) (ht : cond.HasType Γ .bool)
    (h₂ : ((b₁.branched cv).moveTo b₁.nextLabel).Extends b₂)
    (h₃ : (b₂.leave (b₁.nextLabel + 2) (b₁.nextLabel + 1)).Extends b₃)
    (hF : ((b₃.leave (b₁.nextLabel + 2) (b₁.nextLabel + 2)).inserted .callNop).Within F)
    (hthen : b₂.Within F → ∀ c, Matches F Γ addr ((b₁.branched cv).moveTo b₁.nextLabel) s c →
      Follows F φ Γ addr n b₂ c (thenResult s))
    (helse : b₃.Within F → ∀ c,
      Matches F Γ addr (b₂.leave (b₁.nextLabel + 2) (b₁.nextLabel + 1)) s c →
      Follows F φ Γ addr n b₃ c (elseResult s)) :
    Follows F φ Γ addr n ((b₃.leave (b₁.nextLabel + 2) (b₁.nextLabel + 2)).inserted .callNop) c
      (.withValue (cond.eval s.env) fun w ↦ if w ≠ 0 then thenResult s else elseResult s) := by
  have h₁ := (cond.codegen_extends hcode hb).1
  have hmerge := (h₁.branches h₂ h₃).wellFormed
  have hF₃ : (b₃.leave (b₁.nextLabel + 2) (b₁.nextLabel + 2)).Within F := hF.of_inserted
  have hF₂ : (b₂.leave (b₁.nextLabel + 2) (b₁.nextLabel + 1)).Within F :=
    h₃.within (Within.of_leave hF₃)
  have hF₁ : ((b₁.branched cv).moveTo b₁.nextLabel).Within F := h₂.within (Within.of_leave hF₂)
  have hnames₂ : b₂.namedValues = b₁.namedValues := h₂.namedValues
  have hnames₃ : b₃.namedValues = b₂.namedValues := h₃.namedValues
  refine hc.withValue hb hcode ((h₁.wellFormed.branched cv).within hF₁) ht fun w c₁ _ hc₁ hw ↦ ?_
  obtain ⟨k, c₂, hreach, hc₂⟩ := hc₁.test h₁.wellFormed hw hF₁
  have hnil := Extends.mergeBlock_eq_nil h₁.wellFormed h₂ h₃
  -- from the end of a branch to the `nop` of the block that joins the branches
  have hjoin : ∀ {b' : IRBuilder} {l' : ℕ}, b'.WellFormed → b'.namedValues = b₁.namedValues →
      (b'.leave (b₁.nextLabel + 2) l').Within F → ∀ s c, Matches F Γ addr b' s c →
      Follows F φ Γ addr n ((b₃.leave (b₁.nextLabel + 2) (b₁.nextLabel + 2)).inserted .callNop) c
        (.done s) := by
    intro b' l' hb' hnames hF' s c hm
    obtain ⟨c', hreach', hm'⟩ := hm.leave (φ := φ)
      (d := b₃.leave (b₁.nextLabel + 2) (b₁.nextLabel + 2)) hb' hF'
      (hnames₃.trans (hnames₂.trans hnames.symm)) hnil
    exact (hm'.nop hmerge hF).after hreach'
  have hdone : ∀ r : ScalarResult, r.andThen .done = r := by
    intro r
    cases r <;> rfl
  refine Follows.after hreach ?_
  by_cases hw0 : w ≠ 0
  · rw [if_pos hw0, ← hdone (thenResult s)]
    have hstart := hc₂ ((b₁.branched cv).moveTo b₁.nextLabel) (if_pos hw0).symm rfl
      (h₁.wellFormed.branched_blocks cv le_rfl)
    exact (hthen (Within.of_leave hF₂) c₂ hstart).andThen (hjoin h₂.wellFormed hnames₂ hF₂)
  · rw [if_neg hw0, ← hdone (elseResult s)]
    have hstart := hc₂ (b₂.leave (b₁.nextLabel + 2) (b₁.nextLabel + 1)) (if_neg hw0).symm hnames₂
      (Extends.elseBlock_eq_nil h₁.wellFormed h₂)
    exact (helse (Within.of_leave hF₃) c₂ hstart).andThen
      (hjoin h₃.wellFormed (hnames₃.trans hnames₂) hF₃)

/-- A variable whose address was asked for. -/
theorem ASTExpr.IsVariable.codegen {e : ASTExpr} {τ : ScalarType} (h : e.IsVariable Γ τ)
    {b b₁ : IRBuilder} {s : ScalarState} {c : Config} {v : Operand} (hc : Matches F Γ addr b s c)
    (hcode : e.codegen true b = some (v, b₁)) :
    b₁ = b ∧ ∃ node name r, e = .variableExpr node name ∧ Γ name = some τ ∧
      b.namedValues name = some r ∧ v = .instr r := by
  unfold ASTExpr.IsVariable at h
  split at h
  · rename_i node name
    obtain ⟨r, hr, -, -⟩ := hc.represents.stored name τ h
    rw [ASTExpr.codegen_variableExpr_of_some hr] at hcode
    cases hcode
    exact ⟨rfl, node, name, r, rfl, h, hr, rfl⟩
  · exact h.elim

theorem Matches.updateStmt {b : IRBuilder} {s : ScalarState} {c : Config} {name : String}
    {r : Register} {op : BinaryInstr} {w : Word} (hc : Matches F Γ addr b s c) (hb : b.WellFormed)
    (hx : Γ name = some .int) (hr : b.namedValues name = some r)
    (hop : op.eval (s.env name) 1 = some w)
    (hF : (((b.created fun dst ↦ .load dst (.instr r)).created fun dst ↦
      .binary dst op (.instr b.nextRegister) (.const 1)).inserted
      (.store (.instr (b.nextRegister + 1)) (.instr r))).Within F) :
    Follows F φ Γ addr n (((b.created fun dst ↦ .load dst (.instr r)).created fun dst ↦
      .binary dst op (.instr b.nextRegister) (.const 1)).inserted
      (.store (.instr (b.nextRegister + 1)) (.instr r))) c (.done (s.assign name w)) := by
  obtain ⟨r', hr', hptr, hcell⟩ := hc.represents.stored name .int hx
  rw [hr] at hr'
  cases hr'
  have hp : c.operand φ (.instr r) = some (.ptr (addr name)) := hptr
  have hload := hc.position.created (φ := φ) (u := .i64 (s.env name)) hF.of_inserted.of_created
    fun rest ↦ by simp [Config.execute, Config.cell_of_operand hp, hcell]
  obtain ⟨k, c', hreach, hat, hkeep, hv⟩ := hload.bind (Nat.le_succ _) fun c₁ hc₁ _ hv₁ ↦
    hc₁.created (φ := φ) (u := .i64 w) hF.of_inserted fun rest ↦ by
      simp only [Config.execute, Config.word_advance, Config.word_of_operand hv₁, Config.word_const,
        Option.bind_eq_bind, Option.bind_some, hop]
  have hm : Matches F Γ addr ((b.created fun dst ↦ .load dst (.instr r)).created fun dst ↦
      .binary dst op (.instr b.nextRegister) (.const 1)) s c' :=
    hc.of_keeps hb hkeep (by rfl) hat
  exact (hm.store hx hr hv (by intro h; cases h) hF).after hreach

mutual

/-- The machine follows the evaluation of a statement. -/
theorem ASTStmt.codegen_follows : ∀ (stmt : ASTStmt) {b b' : IRBuilder} {s : ScalarState}
    {c : Config}, stmt.codegen b = some ((), b') → b.WellFormed → b'.Within F → stmt.WellTyped Γ →
    Matches F Γ addr b s c → Follows F φ Γ addr n b' c (stmt.exec n s)
  | .assignStmt _ lhs rhs, b, b', s, c, h, hb, hF, ht, hc => by
    rw [ASTStmt.WellTyped] at ht
    obtain ⟨τ, hvar, ht⟩ := ht
    obtain ⟨lv, b₁, hl, rv, b₂, hr, rfl⟩ := ASTStmt.codegen_assignStmt.1 h
    obtain ⟨rfl, node, name, r, rfl, hx, hname, rfl⟩ := hvar.codegen hc hl
    rw [ASTStmt.exec]
    refine hc.withValue hb hr (Within.of_inserted hF) ht fun w c₁ hw hc₁ hv ↦ ?_
    rw [← (rhs.codegen_extends hr hb).1.namedValues] at hname
    exact hc₁.store hx hname hv hw hF
  | .updateStmt _ arg increment, b, b', s, c, h, hb, hF, ht, hc => by
    rw [ASTStmt.WellTyped] at ht
    obtain ⟨a, b₁, ha, rfl⟩ := ASTStmt.codegen_updateStmt.1 h
    obtain ⟨rfl, node, name, r, rfl, hx, hname, rfl⟩ := ht.codegen hc ha
    rw [ASTStmt.exec]
    cases increment with
    | true => exact hc.updateStmt hb hx hname rfl hF
    | false => exact hc.updateStmt hb hx hname rfl hF
  | .blockStmt _ [], b, b', s, c, h, hb, hF, _, hc => by
    simp only [ASTStmt.codegen, insert_run, Option.some.injEq, Prod.mk.injEq, true_and] at h
    subst h
    rw [ASTStmt.exec, ASTStmt.execList]
    exact hc.nop hb hF
  | .blockStmt _ (stmt :: stmts), b, b', s, c, h, hb, hF, ht, hc => by
    rw [ASTStmt.WellTyped] at ht
    rw [ASTStmt.codegen] at h
    rw [ASTStmt.exec]
    exact ASTStmt.codegenList_follows (stmt :: stmts) h hb hF ht hc
  | .whileStmt _ cond body, b, b', s, c, h, hb, hF, ht, hc => by
    rw [ASTStmt.WellTyped] at ht
    obtain ⟨cv, b₁, hcode, b₂, hbody, rfl⟩ := ASTStmt.codegen_whileStmt.1 h
    have h₁ := (cond.codegen_extends hcode hb.atHeader.wellFormed).1
    have hwf := (hb.atBody h₁ cv).wellFormed
    have h₂ := body.codegen_extends hbody hwf
    have hF₂ : b₂.Within F := Within.of_leave (Within.of_inserted hF)
    have hFheader : (b.leave b.nextLabel b.nextLabel).Within F :=
      h₁.within (Within.of_created (Within.of_inserted (h₂.within hF₂)))
    obtain ⟨c₁, hreach, hc₁⟩ := hc.leave (d := b.atHeader) (φ := φ) hb hFheader rfl
      (hb.atHeader_blocks le_rfl)
    rw [ASTStmt.exec]
    exact (hc₁.whileLoop hb hcode ht.1 h₂ hF
      (fun s c hc ↦ body.codegen_follows hbody hwf hF₂ ht.2 hc) n s c₁ le_rfl).after hreach
  | .ifStmt _ cond thenStmt none, b, b', s, c, h, hb, hF, ht, hc => by
    rw [ASTStmt.WellTyped] at ht
    obtain ⟨cv, b₁, hcode, b₂, hthen, b₃, helse, rfl⟩ := ASTStmt.codegen_ifStmt.1 h
    have h₁ := (cond.codegen_extends hcode hb).1
    have hbr := (h₁.wellFormed.branched cv).moveTo (l := b₁.nextLabel) le_rfl (by simp)
    have h₂ := thenStmt.codegen_extends hthen hbr.wellFormed
    have hlv := (h₁.wellFormed.afterThen h₂).wellFormed
    simp only [ASTStmt.codegenElse, insert_run, Option.some.injEq, Prod.mk.injEq, true_and] at helse
    subst helse
    rw [ASTStmt.exec]
    exact hc.ifStmt hb hcode ht.1 h₂ (hlv.inserted _) hF
      (fun hF₂ c hc ↦ thenStmt.codegen_follows hthen hbr.wellFormed hF₂ ht.2 hc)
      (fun hF₃ c hc ↦ hc.nop hlv hF₃)
  | .ifStmt _ cond thenStmt (some elseStmt), b, b', s, c, h, hb, hF, ht, hc => by
    rw [ASTStmt.WellTyped] at ht
    obtain ⟨cv, b₁, hcode, b₂, hthen, b₃, helse, rfl⟩ := ASTStmt.codegen_ifStmt.1 h
    have h₁ := (cond.codegen_extends hcode hb).1
    have hbr := (h₁.wellFormed.branched cv).moveTo (l := b₁.nextLabel) le_rfl (by simp)
    have h₂ := thenStmt.codegen_extends hthen hbr.wellFormed
    have hlv := (h₁.wellFormed.afterThen h₂).wellFormed
    rw [ASTStmt.codegenElse] at helse
    rw [ASTStmt.exec]
    exact hc.ifStmt hb hcode ht.1 h₂ (elseStmt.codegen_extends helse hlv) hF
      (fun hF₂ c hc ↦ thenStmt.codegen_follows hthen hbr.wellFormed hF₂ ht.2.1 hc)
      (fun hF₃ c hc ↦ elseStmt.codegen_follows helse hlv hF₃ ht.2.2 hc)
  | .outputStmt _ arg, b, b', s, c, h, hb, hF, ht, hc => by
    rw [ASTStmt.WellTyped] at ht
    obtain ⟨τ, ht⟩ := ht
    obtain ⟨a, b₁, ha, rfl⟩ := ASTStmt.codegen_outputStmt.1 h
    rw [ASTStmt.exec]
    refine hc.withValue hb ha (Within.of_inserted hF) ht fun w c₁ _ hc₁ hv ↦ ?_
    exact hc₁.output hv hF
  | .forStmt _ _ _ _, _, _, _, _, _, _, _, ht, _ => by
    rw [ASTStmt.WellTyped] at ht
    exact ht.elim
  | .errorStmt _ _, _, _, _, _, _, _, _, ht, _ => by
    rw [ASTStmt.WellTyped] at ht
    exact ht.elim

theorem ASTStmt.codegenList_follows : ∀ (stmts : List ASTStmt) {b b' : IRBuilder} {s : ScalarState}
    {c : Config}, ASTStmt.codegenList stmts b = some ((), b') → b.WellFormed → b'.Within F →
    ASTStmt.WellTypedList Γ stmts → Matches F Γ addr b s c →
    Follows F φ Γ addr n b' c (ASTStmt.execList n stmts s)
  | [], b, b', s, c, h, _, _, _, hc => by
    simp only [ASTStmt.codegenList, pure_run, Option.some.injEq, Prod.mk.injEq, true_and] at h
    subst h
    rw [ASTStmt.execList]
    exact ⟨0, c, Reaches.refl _ _, hc⟩
  | stmt :: stmts, b, b', s, c, h, hb, hF, ht, hc => by
    obtain ⟨b₁, hs, hstmts⟩ := ASTStmt.codegenList_cons.1 h
    rw [ASTStmt.WellTypedList] at ht
    have h₁ := stmt.codegen_extends hs hb
    have h₂ := ASTStmt.codegenList_extends stmts hstmts h₁.wellFormed
    rw [ASTStmt.execList]
    refine (stmt.codegen_follows hs hb (h₂.within hF) ht.1 hc).andThen fun s' c' hc' ↦ ?_
    exact ASTStmt.codegenList_follows stmts hstmts h₁.wellFormed hF ht.2 hc'

end

end Statements

end Sipc
