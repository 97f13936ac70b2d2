import Sipc.Codegen.CodeGenCorrectness

/-!
# Code generation preserves the meaning of a function

The code of a function starts with the allocas of its parameters and local variables, in front of
the stores of their initial values. `Prologue` is what holds of a builder while these are generated:
executing the entry block so far leaves every name in a cell of its own, with its initial value.
From there the machine follows the statements of the body and returns. Well-typed functions of the
scalar core are translated, and their code behaves like their direct evaluation
(`codegen_behavesLike`).
-/

set_option autoImplicit false
set_option relaxedAutoImplicit false

namespace Sipc

open IR IRBuilder
open Machine (Reaches)

/-! ### Well-typed code is translated -/

section Totality

variable {Γ : TypeContext}

/-- Every variable of the context has an alloca. -/
def IRBuilder.Covers (Γ : TypeContext) (b : IRBuilder) : Prop :=
  ∀ x τ, Γ x = some τ → ∃ r, b.namedValues x = some r

theorem IRBuilder.Extends.covers {b b' : IRBuilder} (h : b.Extends b') (hc : b.Covers Γ) :
    b'.Covers Γ := by
  intro x τ hx
  rw [h.namedValues]
  exact hc x τ hx

theorem ASTExpr.exists_codegen : ∀ (e : ASTExpr) {τ : ScalarType} {b : IRBuilder} (lv : Bool),
    e.HasType Γ τ → b.WellFormed → b.Covers Γ → ∃ v b', e.codegen lv b = some (v, b')
  | .numberExpr _ _, _, _, _, _, _, _ => ⟨_, _, rfl⟩
  | .boolExpr _ _, _, _, _, _, _, _ => ⟨_, _, rfl⟩
  | .variableExpr _ name, τ, b, lv, ht, _, hc => by
    rw [ASTExpr.HasType] at ht
    obtain ⟨r, hr⟩ := hc name τ ht
    rw [ASTExpr.codegen_variableExpr_of_some hr]
    cases lv
    · exact ⟨_, _, rfl⟩
    · exact ⟨_, _, rfl⟩
  | .binaryExpr _ op left right, τ, b, lv, ht, hb, hc => by
    rw [ASTExpr.HasType] at ht
    obtain ⟨σ, -, htl, htr⟩ := ht
    obtain ⟨l, b₁, hl⟩ := left.exists_codegen lv htl hb hc
    have h₁ := (left.codegen_extends hl hb).1
    obtain ⟨r, b₂, hr⟩ := right.exists_codegen lv htr h₁.wellFormed (h₁.covers hc)
    exact ⟨_, _, ASTExpr.codegen_binaryExpr.2 ⟨l, b₁, hl, r, b₂, hr, op.codegen_run l r b₂⟩⟩
  | .notExpr _ arg, τ, b, lv, ht, hb, hc => by
    rw [ASTExpr.HasType] at ht
    obtain ⟨a, b₁, ha⟩ := arg.exists_codegen lv ht.2 hb hc
    exact ⟨_, _, ASTExpr.codegen_notExpr.2 ⟨a, b₁, ha, rfl, rfl⟩⟩
  | .negExpr _ arg, τ, b, lv, ht, hb, hc => by
    rw [ASTExpr.HasType] at ht
    obtain ⟨a, b₁, ha⟩ := arg.exists_codegen lv ht.2 hb hc
    exact ⟨_, _, ASTExpr.codegen_negExpr.2 ⟨a, b₁, ha, rfl, rfl⟩⟩
  | .ternaryExpr _ c t e, τ, b, lv, ht, hb, hc => by
    rw [ASTExpr.HasType] at ht
    obtain ⟨htc, htt, hte⟩ := ht
    obtain ⟨cv, b₁, hcode⟩ := c.exists_codegen lv htc hb hc
    have h₁ := (c.codegen_extends hcode hb).1
    have hbr := (h₁.wellFormed.branched cv).moveTo (l := b₁.nextLabel) le_rfl (by simp)
    have hc₁ := h₁.covers hc
    obtain ⟨tv, b₂, ht⟩ := t.exists_codegen lv htt hbr.wellFormed (hbr.covers hc₁)
    have h₂ := (t.codegen_extends ht hbr.wellFormed).1
    have hlv := h₁.wellFormed.afterThen h₂
    obtain ⟨ev, b₃, he⟩ := e.exists_codegen lv hte hlv.wellFormed (hlv.covers hc₁)
    exact ⟨_, _, ASTExpr.codegen_ternaryExpr.2
      ⟨cv, b₁, hcode, tv, b₂, ht, ev, b₃, he, rfl, rfl⟩⟩
  | .inputExpr _, _, _, _, h, _, _ | .nullExpr _, _, _, _, h, _, _
  | .funAppExpr _ _ _, _, _, _, h, _, _ | .allocExpr _ _, _, _, _, h, _, _
  | .refExpr _ _, _, _, _, h, _, _ | .deRefExpr _ _, _, _, _, h, _, _
  | .recordExpr _ _, _, _, _, h, _, _ | .accessExpr _ _ _, _, _, _, h, _, _
  | .arrayExpr _ _, _, _, _, h, _, _ | .arrayOfExpr _ _ _, _, _, _, h, _, _
  | .indexingExpr _ _ _, _, _, _, h, _, _ | .arrayLenExpr _ _, _, _, _, h, _, _ =>
    False.elim h

theorem ASTExpr.IsVariable.hasType {e : ASTExpr} {τ : ScalarType} (h : e.IsVariable Γ τ) :
    e.HasType Γ τ := by
  unfold ASTExpr.IsVariable at h
  split at h
  · rw [ASTExpr.HasType]
    exact h
  · exact h.elim

mutual

theorem ASTStmt.exists_codegen : ∀ (s : ASTStmt) {b : IRBuilder}, s.WellTyped Γ → b.WellFormed →
    b.Covers Γ → ∃ b', s.codegen b = some ((), b')
  | .assignStmt _ lhs rhs, b, ht, hb, hc => by
    rw [ASTStmt.WellTyped] at ht
    obtain ⟨τ, hvar, ht⟩ := ht
    obtain ⟨lv, b₁, hl⟩ := lhs.exists_codegen true hvar.hasType hb hc
    have h₁ := (lhs.codegen_extends hl hb).1
    obtain ⟨rv, b₂, hr⟩ := rhs.exists_codegen false ht h₁.wellFormed (h₁.covers hc)
    exact ⟨_, ASTStmt.codegen_assignStmt.2 ⟨lv, b₁, hl, rv, b₂, hr, rfl⟩⟩
  | .updateStmt _ arg increment, b, ht, hb, hc => by
    rw [ASTStmt.WellTyped] at ht
    obtain ⟨a, b₁, ha⟩ := arg.exists_codegen true ht.hasType hb hc
    exact ⟨_, ASTStmt.codegen_updateStmt.2 ⟨a, b₁, ha, rfl⟩⟩
  | .blockStmt _ [], b, _, _, _ => by
    rw [ASTStmt.codegen]
    exact ⟨_, insert_run _ _⟩
  | .blockStmt _ (s :: stmts), b, ht, hb, hc => by
    rw [ASTStmt.WellTyped] at ht
    rw [ASTStmt.codegen]
    exact ASTStmt.exists_codegenList (s :: stmts) ht hb hc
  | .whileStmt _ cond body, b, ht, hb, hc => by
    rw [ASTStmt.WellTyped] at ht
    obtain ⟨cv, b₁, hcode⟩ := cond.exists_codegen false ht.1 hb.atHeader.wellFormed
      (hb.atHeader.covers hc)
    have h₁ := (cond.codegen_extends hcode hb.atHeader.wellFormed).1
    have hbody := hb.atBody h₁ cv
    obtain ⟨b₂, h₂⟩ := body.exists_codegen ht.2 hbody.wellFormed (hbody.covers hc)
    exact ⟨_, ASTStmt.codegen_whileStmt.2 ⟨cv, b₁, hcode, b₂, h₂, rfl⟩⟩
  | .ifStmt _ cond thenStmt elseStmt, b, ht, hb, hc => by
    have htc : cond.HasType Γ .bool ∧ thenStmt.WellTyped Γ := by
      cases elseStmt <;> simp only [ASTStmt.WellTyped] at ht
      · exact ht
      · exact ⟨ht.1, ht.2.1⟩
    obtain ⟨cv, b₁, hcode⟩ := cond.exists_codegen false htc.1 hb hc
    have h₁ := (cond.codegen_extends hcode hb).1
    have hbr := (h₁.wellFormed.branched cv).moveTo (l := b₁.nextLabel) le_rfl (by simp)
    have hc₁ := h₁.covers hc
    obtain ⟨b₂, hthen⟩ := thenStmt.exists_codegen htc.2 hbr.wellFormed (hbr.covers hc₁)
    have hlv := h₁.wellFormed.afterThen (thenStmt.codegen_extends hthen hbr.wellFormed)
    obtain ⟨b₃, helse⟩ : ∃ b₃, ASTStmt.codegenElse elseStmt
        (b₂.leave (b₁.nextLabel + 2) (b₁.nextLabel + 1)) = some ((), b₃) := by
      cases elseStmt with
      | none =>
        rw [ASTStmt.codegenElse]
        exact ⟨_, insert_run _ _⟩
      | some s =>
        rw [ASTStmt.WellTyped] at ht
        rw [ASTStmt.codegenElse]
        exact s.exists_codegen ht.2.2 hlv.wellFormed (hlv.covers hc₁)
    exact ⟨_, ASTStmt.codegen_ifStmt.2 ⟨cv, b₁, hcode, b₂, hthen, b₃, helse, rfl⟩⟩
  | .outputStmt _ arg, b, ht, hb, hc => by
    rw [ASTStmt.WellTyped] at ht
    obtain ⟨τ, ht⟩ := ht
    obtain ⟨a, b₁, ha⟩ := arg.exists_codegen false ht hb hc
    exact ⟨_, ASTStmt.codegen_outputStmt.2 ⟨a, b₁, ha, rfl⟩⟩
  | .forStmt _ _ _ _, _, ht, _, _ => by
    rw [ASTStmt.WellTyped] at ht
    exact ht.elim
  | .errorStmt _ _, _, ht, _, _ => by
    rw [ASTStmt.WellTyped] at ht
    exact ht.elim

theorem ASTStmt.exists_codegenList : ∀ (stmts : List ASTStmt) {b : IRBuilder},
    ASTStmt.WellTypedList Γ stmts → b.WellFormed → b.Covers Γ →
    ∃ b', ASTStmt.codegenList stmts b = some ((), b')
  | [], b, _, _, _ => by
    rw [ASTStmt.codegenList]
    exact ⟨_, rfl⟩
  | s :: stmts, b, ht, hb, hc => by
    rw [ASTStmt.WellTypedList] at ht
    obtain ⟨b₁, hs⟩ := s.exists_codegen ht.1 hb hc
    have h₁ := s.codegen_extends hs hb
    obtain ⟨b₂, hstmts⟩ := ASTStmt.exists_codegenList stmts ht.2 h₁.wellFormed (h₁.covers hc)
    exact ⟨b₂, ASTStmt.codegenList_cons.2 ⟨b₁, hs, hstmts⟩⟩

end

end Totality

/-! ### The declarations -/

namespace IRBuilder

/-- The builder after the code of one declaration in the entry block: an alloca in front, the code
that stores the initial value at the end, and the binding of the name. -/
def declared (b : IRBuilder) (name : String) (registers : ℕ) (code : List Instruction) : IRBuilder :=
  { b with
    blocks := Function.update b.blocks 0 (.alloca b.nextRegister :: b.blocks 0 ++ code)
    nextRegister := b.nextRegister + registers
    namedValues := Function.update b.namedValues name (some b.nextRegister) }

/-- The code stores the value in the cell that the register `r` points to, and sets no register but
those between `r` and `r + registers`. -/
def StoresInitial (φ : Frame) (r registers : ℕ) (w : Word) (code : List Instruction) : Prop :=
  ∀ (F : Blocks) (c : Config) (rest : List Instruction) (a : ℕ), c.rest = code ++ rest →
    c.regs r = some (.ptr a) → a < c.cells.length →
    ∃ k c', Reaches (Config.step F φ) k c c' ∧ c'.block = c.block ∧ c'.rest = rest ∧
      c'.out = c.out ∧ c'.cells = c.cells.set a (some w) ∧
      ∀ q : ℕ, q ≤ r ∨ r + registers ≤ q → c'.regs q = c.regs q

/-- What holds while the code of the declarations is generated: the entry block consists of the
allocas and the code of the initial values, and executing that code leaves every name in the cell of
its alloca, with its initial value. -/
structure Prologue (φ : Frame) (vals : Valuation) (b : IRBuilder) (allocas : List ℕ)
    (code : List Instruction) : Prop where
  entry : b.blocks 0 = allocas.map .alloca ++ code
  others : ∀ l : ℕ, l ≠ 0 → b.blocks l = []
  insertBlock : b.insertBlock = 0
  nextLabel : b.nextLabel = 1
  lt_nextRegister : ∀ r ∈ allocas, r < b.nextRegister
  nodup : allocas.Nodup
  mem : ∀ (x : String) (r : ℕ), b.namedValues x = some r → r ∈ allocas
  injective : ∀ (x y : String) (r : ℕ), b.namedValues x = some r → b.namedValues y = some r → x = y
  runs : ∀ (F : Blocks) (c : Config) (rest : List Instruction) (cellOf : ℕ → ℕ),
    c.rest = code ++ rest →
    (∀ r ∈ allocas, c.regs r = some (.ptr (cellOf r)) ∧ cellOf r < c.cells.length) →
    (∀ r ∈ allocas, ∀ q ∈ allocas, cellOf r = cellOf q → r = q) →
    ∃ k c', Reaches (Config.step F φ) k c c' ∧ c'.block = c.block ∧ c'.rest = rest ∧
      c'.out = c.out ∧ c'.cells.length = c.cells.length ∧
      (∀ r : ℕ, r ∈ allocas ∨ b.nextRegister ≤ r → c'.regs r = c.regs r) ∧
      ∀ (x : String) (r : ℕ), b.namedValues x = some r → c'.cells[cellOf r]? = some (some (vals x))

variable {φ : Frame} {vals : Valuation}

theorem prologue_entry (functionIndex : String → Option ℕ) :
    Prologue φ vals (IRBuilder.entry functionIndex) [] [] where
  entry := rfl
  others _ _ := rfl
  insertBlock := rfl
  nextLabel := rfl
  lt_nextRegister _ h := nomatch h
  nodup := List.nodup_nil
  mem _ _ h := nomatch h
  injective _ _ _ h := nomatch h
  runs _ c _ _ hrest _ _ :=
    ⟨0, c, Reaches.refl _ _, rfl, hrest, rfl, rfl, by simp, by simp [IRBuilder.entry]⟩

/-- One more declaration. -/
theorem Prologue.declared {b : IRBuilder} {allocas : List ℕ} {code : List Instruction}
    (h : Prologue φ vals b allocas code) {name : String} {registers : ℕ} {new : List Instruction}
    (hreg : 0 < registers)
    (hnew : StoresInitial φ b.nextRegister registers (vals name) new) :
    Prologue φ vals (b.declared name registers new) (b.nextRegister :: allocas) (code ++ new) where
  entry := by
    simp [IRBuilder.declared, h.entry]
  others l hl := by
    simp only [IRBuilder.declared]
    rw [Function.update_of_ne hl]
    exact h.others l hl
  insertBlock := h.insertBlock
  nextLabel := h.nextLabel
  lt_nextRegister r hr := by
    simp only [IRBuilder.declared]
    rcases List.mem_cons.1 hr with rfl | hr
    · omega
    · have := h.lt_nextRegister r hr
      omega
  nodup := by
    refine List.nodup_cons.2 ⟨fun hmem ↦ ?_, h.nodup⟩
    exact lt_irrefl _ (h.lt_nextRegister _ hmem)
  mem x r hx := by
    simp only [IRBuilder.declared, Function.update_apply] at hx
    split_ifs at hx with hxn
    · cases hx
      exact List.mem_cons_self
    · exact List.mem_cons_of_mem _ (h.mem x r hx)
  injective x y r hx hy := by
    simp only [IRBuilder.declared, Function.update_apply] at hx hy
    split_ifs at hx hy with hxn hyn hyn
    · rw [hxn, hyn]
    · cases hx
      exact absurd (h.lt_nextRegister _ (h.mem y _ hy)) (lt_irrefl _)
    · cases hy
      exact absurd (h.lt_nextRegister _ (h.mem x _ hx)) (lt_irrefl _)
    · exact h.injective x y r hx hy
  runs F c rest cellOf hrest hptr hinj := by
    rw [List.append_assoc] at hrest
    obtain ⟨k, c₁, hreach, hblock, hrest₁, hout, hlen, hregs, hvals⟩ := h.runs F c (new ++ rest)
      cellOf hrest (fun r hr ↦ hptr r (List.mem_cons_of_mem _ hr))
      (fun r hr q hq ↦ hinj r (List.mem_cons_of_mem _ hr) q (List.mem_cons_of_mem _ hq))
    obtain ⟨hp, hlt⟩ := hptr b.nextRegister List.mem_cons_self
    obtain ⟨k', c₂, hreach', hblock', hrest', hout', hcells, hregs'⟩ := hnew F c₁ rest
      (cellOf b.nextRegister) hrest₁ (by rw [hregs _ (.inr le_rfl), hp]) (by omega)
    refine ⟨k + k', c₂, hreach.trans hreach', hblock'.trans hblock, hrest', hout'.trans hout, ?_,
      ?_, ?_⟩
    · rw [hcells, List.length_set, hlen]
    · intro r hr
      have hr' : (r ≤ b.nextRegister ∨ b.nextRegister + registers ≤ r) ∧
          (r ∈ allocas ∨ b.nextRegister ≤ r) := by
        rcases hr with hr | hr
        · rcases List.mem_cons.1 hr with rfl | hr
          · exact ⟨.inl le_rfl, .inr le_rfl⟩
          · exact ⟨.inl (h.lt_nextRegister r hr).le, .inl hr⟩
        · simp only [IRBuilder.declared] at hr
          exact ⟨.inr hr, .inr (by omega)⟩
      rw [hregs' r hr'.1, hregs r hr'.2]
    · intro x r hx
      simp only [IRBuilder.declared, Function.update_apply] at hx
      rw [hcells]
      split_ifs at hx with hxn
      · cases hx
        rw [List.getElem?_set_self (by omega), hxn]
      · have hne : cellOf b.nextRegister ≠ cellOf r := by
          intro heq
          have hr := h.mem x r hx
          have := hinj b.nextRegister List.mem_cons_self r (List.mem_cons_of_mem _ hr) heq
          exact absurd (h.lt_nextRegister r hr) (by omega)
        rw [List.getElem?_set_ne hne]
        exact hvals x r hx

theorem run_bind_createEntryBlockAlloca {β : Type} (b : IRBuilder) (f : Register → Codegen β) :
    (createEntryBlockAlloca >>= f) b = f b.nextRegister { b with
      nextRegister := b.nextRegister + 1
      blocks := Function.update b.blocks 0 (.alloca b.nextRegister :: b.blocks 0) } := rfl

theorem bindName_run (b : IRBuilder) (name : String) (r : Register) :
    bindName name r b =
      some ((), { b with namedValues := Function.update b.namedValues name (some r) }) := rfl

variable {b : IRBuilder}

theorem codegenLocal_run (hins : b.insertBlock = 0) (d : ASTDeclNode) :
    d.codegenLocal b = some ((), b.declared d.name 1
      [.store (.const 0) (.instr b.nextRegister)]) := by
  rw [ASTDeclNode.codegenLocal, run_bind_createEntryBlockAlloca, run_bind_insert, bindName_run]
  simp [IRBuilder.declared, IRBuilder.inserted, hins]

theorem codegenArg_run (hins : b.insertBlock = 0) (d : ASTDeclNode) (i : ℕ) :
    d.codegenArg i b = some ((), b.declared d.name 1
      [.store (.arg i) (.instr b.nextRegister)]) := by
  rw [ASTDeclNode.codegenArg, run_bind_createEntryBlockAlloca, run_bind_insert, bindName_run]
  simp [IRBuilder.declared, IRBuilder.inserted, hins]

theorem codegenMainArg_run (hins : b.insertBlock = 0) (d : ASTDeclNode) (i : ℕ) :
    d.codegenMainArg i b = some ((), b.declared d.name 2
      [.loadInput (b.nextRegister + 1) i,
        .store (.instr (b.nextRegister + 1)) (.instr b.nextRegister)]) := by
  rw [ASTDeclNode.codegenMainArg, run_bind_createEntryBlockAlloca, run_bind_create, run_bind_insert,
    bindName_run]
  simp [IRBuilder.declared, IRBuilder.inserted, IRBuilder.created, hins]

/-- A store of an operand whose value does not change. -/
theorem storesInitial_store {r registers : ℕ} {v : Operand} {w : Word}
    (hv : ∀ c : Config, c.operand φ v = some (.i64 w)) :
    StoresInitial φ r registers w [.store v (.instr r)] := by
  intro F c rest a hrest hptr hlt
  have hp : c.operand φ (.instr r) = some (.ptr a) := hptr
  refine ⟨1, { c.advance rest with cells := c.cells.set a (some w) }, Reaches.single ?_, rfl, rfl,
    rfl, rfl, fun _ _ ↦ rfl⟩
  rw [Config.step_of_rest hrest]
  simp [Config.execute, Config.word_of_operand (hv c), Config.cell_of_operand hp, hlt]

theorem storesInitial_loadInput {r i : ℕ} {w : Word} (hw : φ.inputArray[i]? = some w) :
    StoresInitial φ r 2 w [.loadInput (r + 1) i, .store (.instr (r + 1)) (.instr r)] := by
  intro F c rest a hrest hptr hlt
  have hload : Config.step F φ c = .next ((c.advance
      (.store (.instr (r + 1)) (.instr r) :: rest)).set (r + 1) (.i64 w)) := by
    rw [Config.step_of_rest hrest]
    simp [Config.execute, hw]
  have hregs : ∀ q : ℕ, q ≤ r ∨ r + 2 ≤ q →
      Function.update c.regs (r + 1) (some (.i64 w)) q = c.regs q := by
    intro q hq
    exact Function.update_of_ne (show q ≠ r + 1 by omega) _ _
  generalize hc₁ : (c.advance (.store (.instr (r + 1)) (.instr r) :: rest)).set (r + 1) (.i64 w) = c₁
    at hload
  have hv : c₁.operand φ (.instr (r + 1)) = some (.i64 w) := by
    rw [← hc₁]
    exact Function.update_self _ _ _
  have hp : c₁.operand φ (.instr r) = some (.ptr a) := by
    rw [← hc₁]
    exact (hregs r (.inl le_rfl)).trans hptr
  have hcells : c₁.cells = c.cells := by rw [← hc₁]; rfl
  refine ⟨2, { c₁.advance rest with cells := c.cells.set a (some w) },
    Reaches.head hload (Reaches.single ?_), by rw [← hc₁]; rfl, rfl, by rw [← hc₁]; rfl, rfl, ?_⟩
  · have hrest₁ : c₁.rest = .store (.instr (r + 1)) (.instr r) :: rest := by rw [← hc₁]; rfl
    rw [Config.step_of_rest hrest₁]
    simp [Config.execute, Config.word_of_operand hv, Config.cell_of_operand hp, hcells, hlt]
  · intro q hq
    rw [← hregs q hq, ← hc₁]
    rfl

/-- The code of the declarations of `names` was generated. -/
def Declares (φ : Frame) (vals : Valuation) (b : IRBuilder) (names : List String) : Prop :=
  (∃ allocas code, Prologue φ vals b allocas code) ∧ ∀ x, b.namedValues x = none ↔ x ∉ names

theorem Declares.insertBlock {names : List String} (h : Declares φ vals b names) :
    b.insertBlock = 0 := by
  obtain ⟨⟨_, _, hp⟩, -⟩ := h
  exact hp.insertBlock

theorem Declares.declared {names : List String} (h : Declares φ vals b names) {name : String}
    {registers : ℕ} {new : List Instruction} (hreg : 0 < registers)
    (hnew : StoresInitial φ b.nextRegister registers (vals name) new) :
    Declares φ vals (b.declared name registers new) (names ++ [name]) := by
  obtain ⟨⟨allocas, code, hp⟩, hnames⟩ := h
  refine ⟨⟨_, _, hp.declared hreg hnew⟩, fun x ↦ ?_⟩
  simp only [IRBuilder.declared, Function.update_apply, List.mem_append, List.mem_singleton,
    not_or]
  split_ifs with hx
  · simp [hx]
  · simp [hx, hnames x]

theorem run_forM_cons {α : Type} {f : α → Codegen Unit} {a : α} {as : List α} {b' : IRBuilder} :
    (a :: as).forM f b = some ((), b') ↔
      ∃ b₁, f a b = some ((), b₁) ∧ as.forM f b₁ = some ((), b') :=
  run_bind_unit_eq_some (x := f a) (f := fun _ ↦ as.forM f)

theorem Declares.locals : ∀ (ds : List ASTDeclNode) {b : IRBuilder} {names : List String},
    Declares φ vals b names → (∀ d ∈ ds, vals d.name = 0) →
    ∃ b', ds.forM ASTDeclNode.codegenLocal b = some ((), b') ∧
      Declares φ vals b' (names ++ ds.map ASTDeclNode.name)
  | [], b, names, h, _ => ⟨b, rfl, by simpa using h⟩
  | d :: ds, b, names, h, hvals => by
    rw [List.map_cons, List.append_cons]
    have hnew : StoresInitial φ b.nextRegister 1 (vals d.name)
        [.store (.const 0) (.instr b.nextRegister)] := by
      rw [hvals d List.mem_cons_self]
      exact storesInitial_store fun _ ↦ rfl
    obtain ⟨b', hrun, hdecl⟩ := Declares.locals ds (h.declared one_pos hnew)
      (fun d' hd' ↦ hvals d' (List.mem_cons_of_mem _ hd'))
    refine ⟨b', ?_, hdecl⟩
    exact run_forM_cons.2 ⟨_, codegenLocal_run h.insertBlock d, hrun⟩

theorem Declares.declStmts : ∀ (ss : List ASTDeclStmt) {b : IRBuilder} {names : List String},
    Declares φ vals b names → (∀ s ∈ ss, s.vars ≠ []) →
    (∀ d ∈ ss.flatMap ASTDeclStmt.vars, vals d.name = 0) →
    ∃ b', ss.forM ASTDeclStmt.codegen b = some ((), b') ∧
      Declares φ vals b' (names ++ (ss.flatMap ASTDeclStmt.vars).map ASTDeclNode.name)
  | [], b, names, h, _, _ => ⟨b, rfl, by simpa using h⟩
  | s :: ss, b, names, h, hne, hvals => by
    rw [List.flatMap_cons, List.map_append, ← List.append_assoc]
    obtain ⟨b₁, hrun₁, hdecl₁⟩ := h.locals s.vars
      (fun d hd ↦ hvals d (by simp [hd]))
    obtain ⟨b₂, hrun₂, hdecl₂⟩ := Declares.declStmts ss hdecl₁
      (fun s' hs' ↦ hne s' (List.mem_cons_of_mem _ hs'))
      (fun d hd ↦ hvals d (by rw [List.flatMap_cons]; exact List.mem_append_right _ hd))
    refine ⟨b₂, ?_, hdecl₂⟩
    have hstmt : s.codegen b = some ((), b₁) := by
      cases hvars : s.vars with
      | nil => exact absurd hvars (hne s List.mem_cons_self)
      | cons d ds =>
        rw [hvars] at hrun₁
        rw [ASTDeclStmt.codegen, hvars]
        exact hrun₁
    exact run_forM_cons.2 ⟨b₁, hstmt, hrun₂⟩

end IRBuilder

/-- The frame passes the actuals to the function: in the input array to `main`, as arguments to the
others. -/
def IR.Frame.Passes (φ : Frame) (f : ASTFunction) (actuals : List Word) : Prop :=
  if f.name = "main" then φ.inputArray = actuals else φ.args = actuals

/-- The code of a formal. -/
def ASTFunction.codegenFormal (f : ASTFunction) (p : ASTDeclNode × ℕ) : Codegen Unit :=
  if f.name = "main" then p.1.codegenMainArg p.2 else p.1.codegenArg p.2

theorem IRBuilder.Declares.formals {f : ASTFunction} {φ : Frame} {vals : Valuation}
    {actuals : List Word} (hfr : φ.Passes f actuals) :
    ∀ (ds : List ASTDeclNode) (i : ℕ) {b : IRBuilder} {names : List String},
    Declares φ vals b names → (∀ j d, ds[j]? = some d → actuals[i + j]? = some (vals d.name)) →
    ∃ b', (ds.zipIdx i).forM f.codegenFormal b = some ((), b') ∧
      Declares φ vals b' (names ++ ds.map ASTDeclNode.name)
  | [], i, b, names, h, _ => ⟨b, rfl, by simpa using h⟩
  | d :: ds, i, b, names, h, hvals => by
    rw [List.map_cons, List.append_cons]
    have hval : actuals[i]? = some (vals d.name) := hvals 0 d rfl
    obtain ⟨b₁, hrun₁, hdecl₁⟩ : ∃ b₁, f.codegenFormal (d, i) b = some ((), b₁) ∧
        Declares φ vals b₁ (names ++ [d.name]) := by
      unfold Frame.Passes at hfr
      unfold ASTFunction.codegenFormal
      split_ifs at hfr ⊢ with hmain
      · rw [← hfr] at hval
        exact ⟨_, codegenMainArg_run h.insertBlock d i,
          h.declared Nat.two_pos (storesInitial_loadInput hval)⟩
      · refine ⟨_, codegenArg_run h.insertBlock d i,
          h.declared one_pos (storesInitial_store fun c ↦ ?_)⟩
        rw [← hfr] at hval
        simp [Config.operand, hval]
    obtain ⟨b', hrun, hdecl⟩ := IRBuilder.Declares.formals hfr ds (i + 1) hdecl₁ (by
      intro j d' hd'
      rw [Nat.add_right_comm]
      exact hvals (j + 1) d' hd')
    refine ⟨b', ?_, hdecl⟩
    rw [List.zipIdx_cons]
    exact run_forM_cons.2 ⟨b₁, hrun₁, hrun⟩

/-! ### The initial state -/

theorem lookup_zip_of_nodup {keys : List String} {l : List Word} (h : keys.Nodup)
    (hlen : l.length = keys.length) {i : ℕ} {x : String} (hx : keys[i]? = some x) :
    ((keys.zip l).lookup x) = l[i]? := by
  induction keys generalizing l i with
  | nil => simp at hx
  | cons key keys ih =>
    obtain ⟨w, l, rfl⟩ : ∃ w l', l = w :: l' := by
      cases l with
      | nil => simp at hlen
      | cons w l => exact ⟨w, l, rfl⟩
    obtain ⟨hkey, hnodup⟩ := List.nodup_cons.1 h
    cases i with
    | zero =>
      obtain rfl : key = x := by simpa using hx
      simp
    | succ i =>
      rw [List.getElem?_cons_succ] at hx
      have hne : x ≠ key := fun heq ↦ hkey (heq ▸ List.mem_of_getElem? hx)
      have hlen' : l.length = keys.length := by simpa using hlen
      have hbeq : (x == key) = false := by simpa using hne
      rw [List.zip_cons_cons, List.lookup_cons, hbeq, List.getElem?_cons_succ, ← ih hnodup hlen' hx]

theorem lookup_zip_of_not_mem {keys : List String} {ws : List Word} {x : String} (hx : x ∉ keys) :
    (keys.zip ws).lookup x = none := by
  rw [List.lookup_eq_none_iff]
  intro p hp
  have hmem : p.1 ∈ keys := (List.of_mem_zip hp).1
  simpa using fun heq : x = p.1 ↦ hx (heq ▸ hmem)

section Initial

variable {Γ : TypeContext} {f : ASTFunction} {actuals : List Word}

theorem ASTFunction.Accepts.initialValuation_formal (h : f.Accepts Γ actuals) (hf : f.WellTyped Γ)
    {i : ℕ} {d : ASTDeclNode} (hd : f.formals[i]? = some d) :
    actuals[i]? = some (f.initialValuation actuals d.name) := by
  have hnodup := hf.nodup
  rw [ASTFunction.localDecls, List.map_append] at hnodup
  have hlookup := lookup_zip_of_nodup (l := actuals) (List.nodup_append.1 hnodup).1
    (by rw [List.length_map, h.length_eq]) (i := i) (x := d.name) (by simp [hd])
  have hlt : i < actuals.length := by
    rw [h.length_eq]
    exact (List.getElem?_eq_some_iff.1 hd).1
  rw [ASTFunction.initialValuation, hlookup, List.getElem?_eq_getElem hlt]
  rfl

theorem ASTFunction.initialValuation_local (hf : f.WellTyped Γ) {d : ASTDeclNode}
    (hd : d ∈ f.declarations.flatMap ASTDeclStmt.vars) :
    f.initialValuation actuals d.name = 0 := by
  have hnodup := hf.nodup
  rw [ASTFunction.localDecls, List.map_append] at hnodup
  have hmem : d.name ∉ f.formals.map ASTDeclNode.name := by
    intro hmem
    exact (List.nodup_append.1 hnodup).2.2 _ hmem _ (List.mem_map_of_mem hd) rfl
  rw [ASTFunction.initialValuation, lookup_zip_of_not_mem hmem]
  rfl

/-- Every variable starts with a value of its type. -/
theorem ASTFunction.Accepts.holds_initialValuation (h : f.Accepts Γ actuals) (hf : f.WellTyped Γ)
    {x : String} {τ : ScalarType} (hx : Γ x = some τ) :
    τ.Holds (f.initialValuation actuals x) := by
  have hmem := (hf.declared x).1 (by simp [hx])
  obtain ⟨d, hd, rfl⟩ := List.mem_map.1 hmem
  rcases List.mem_append.1 hd with hd | hd
  · obtain ⟨i, hi, hget⟩ := List.getElem_of_mem hd
    have hget' : f.formals[i]? = some d := by rw [List.getElem?_eq_getElem hi, hget]
    exact h.holds i d _ τ hget' (h.initialValuation_formal hf hget') hx
  · rw [ASTFunction.initialValuation_local hf hd]
    exact fun _ ↦ .inl rfl

end Initial

section Entry

variable {F : Blocks} {φ : Frame}

/-- The allocas at the start of the entry block give every register a new cell. -/
theorem run_allocas : ∀ (allocas : List ℕ) (c : Config) (rest : List Instruction),
    allocas.Nodup → c.rest = allocas.map .alloca ++ rest →
    ∃ c', Reaches (Config.step F φ) allocas.length c c' ∧ c'.block = c.block ∧ c'.rest = rest ∧
      c'.out = c.out ∧ c'.cells.length = c.cells.length + allocas.length ∧
      (∀ r ∈ allocas, c'.regs r = some (.ptr (c.cells.length + allocas.idxOf r))) ∧
      ∀ r ∉ allocas, c'.regs r = c.regs r
  | [], c, rest, _, hrest => ⟨c, Reaches.refl _ _, rfl, hrest, rfl, rfl, by simp, fun _ _ ↦ rfl⟩
  | r :: rs, c, rest, hnodup, hrest => by
    obtain ⟨hr, hrs⟩ := List.nodup_cons.1 hnodup
    have hstep : Config.step F φ c = .next
        { (c.advance (rs.map .alloca ++ rest)).set r (.ptr c.cells.length) with
          cells := c.cells ++ [none] } := by
      rw [Config.step_of_rest hrest]
      rfl
    obtain ⟨c', hreach, hblock, hrest', hout, hlen, hregs, hkeep⟩ := run_allocas rs
      { (c.advance (rs.map .alloca ++ rest)).set r (.ptr c.cells.length) with
        cells := c.cells ++ [none] } rest hrs rfl
    refine ⟨c', ?_, hblock, hrest', hout, ?_, ?_, ?_⟩
    · rw [List.length_cons, Nat.add_comm]
      exact Reaches.head hstep hreach
    · rw [hlen, List.length_append, List.length_cons]
      simp only [List.length_cons, List.length_nil]
      omega
    · intro q hq
      by_cases hqr : q = r
      · subst hqr
        rw [hkeep q hr, List.idxOf_cons_self]
        exact Function.update_self _ _ _
      · have hq' : q ∈ rs := (List.mem_cons.1 hq).resolve_left hqr
        rw [hregs q hq', List.idxOf_cons_ne _ (Ne.symm hqr), List.length_append]
        simp only [List.length_cons, List.length_nil]
        congr 2
        omega
    · intro q hq
      obtain ⟨hqr, hq'⟩ := not_or.1 (List.mem_cons.not.1 hq)
      rw [hkeep q hq']
      exact Function.update_of_ne hqr _ _

/-- The cell of a variable: the place of its alloca among the allocas of the entry block. -/
def cellOfName (b : IRBuilder) (allocas : List ℕ) (x : String) : ℕ :=
  match b.namedValues x with
  | some r => allocas.idxOf r
  | none => 0

/-- After the code of the declarations every variable has its initial value. -/
theorem IRBuilder.Prologue.matches {Γ : TypeContext} {vals : Valuation} {b : IRBuilder}
    {allocas : List ℕ} {code : List Instruction} (h : Prologue φ vals b allocas code)
    (hF : b.Within F) (hnames : b.Covers Γ) (hvals : ∀ x τ, Γ x = some τ → τ.Holds (vals x)) :
    ∃ k c, Reaches (Config.step F φ) k (Config.initial F) c ∧
      Matches F Γ (cellOfName b allocas) b ⟨vals, []⟩ c := by
  obtain ⟨rest, hrest⟩ := hF 0
  rw [h.entry, List.append_assoc] at hrest
  -- first the allocas, then the code of the initial values
  obtain ⟨c₁, hreach₁, hblock₁, hrest₁, hout₁, hlen₁, hregs₁, -⟩ := run_allocas (F := F) (φ := φ)
    allocas (Config.initial F) (code ++ rest) h.nodup hrest.symm
  have hempty : (Config.initial F).cells.length = 0 := rfl
  simp only [hempty, Nat.zero_add] at hlen₁ hregs₁
  obtain ⟨k, c₂, hreach₂, hblock₂, hrest₂, hout₂, -, hregs₂, hcells⟩ := h.runs F c₁ rest allocas.idxOf
    hrest₁ (fun r hr ↦ ⟨hregs₁ r hr, hlen₁ ▸ List.idxOf_lt_length_of_mem hr⟩)
    (fun r hr q _ heq ↦ (List.idxOf_inj hr).1 heq)
  have hcell : ∀ {x : String} {r : ℕ}, b.namedValues x = some r →
      cellOfName b allocas x = allocas.idxOf r := by
    intro x r hr
    rw [cellOfName, hr]
  refine ⟨allocas.length + k, c₂, hreach₁.trans hreach₂, ⟨?_, ?_⟩, ⟨?_, hvals, ?_⟩,
    hout₂.trans hout₁⟩
  · rw [hblock₂, hblock₁, h.insertBlock]
    rfl
  · rw [hrest₂, h.insertBlock, h.entry, ← hrest, ← List.append_assoc, List.drop_left]
  · intro x τ hx
    obtain ⟨r, hr⟩ := hnames x τ hx
    refine ⟨r, hr, ?_, ?_⟩
    · rw [hregs₂ r (.inl (h.mem x r hr)), hregs₁ r (h.mem x r hr), hcell hr]
    · rw [hcell hr]
      exact hcells x r hr
  · intro x y hx hy heq
    obtain ⟨τ, hτ⟩ := Option.isSome_iff_exists.1 hx
    obtain ⟨σ, hσ⟩ := Option.isSome_iff_exists.1 hy
    obtain ⟨r, hr⟩ := hnames x τ hτ
    obtain ⟨q, hq⟩ := hnames y σ hσ
    rw [hcell hr, hcell hq] at heq
    have hrq : r = q := (List.idxOf_inj (h.mem x r hr)).1 heq
    subst hrq
    exact h.injective x y r hr hq

theorem IRBuilder.Prologue.wellFormed {vals : Valuation} {b : IRBuilder} {allocas : List ℕ}
    {code : List Instruction} (h : Prologue φ vals b allocas code) : b.WellFormed where
  insertBlock_lt := by
    rw [h.insertBlock, h.nextLabel]
    exact Nat.one_pos
  blocks_of_le l hl := by
    rw [h.nextLabel] at hl
    exact h.others l (by omega)
  namedValues_lt x r hr := h.lt_nextRegister r (h.mem x r hr)

end Entry

/-! ### The function -/

section Function

variable {Γ : TypeContext} {f : ASTFunction}

theorem ASTReturnStmt.codegen_eq_some {s : ASTReturnStmt} {b b' : IRBuilder} :
    s.codegen b = some ((), b') ↔
      ∃ v b₁, s.arg.codegen false b = some (v, b₁) ∧ b₁.inserted (.ret v) = b' := by
  simp only [ASTReturnStmt.codegen, run_bind_eq_some, insert_run, Option.some.injEq, Prod.mk.injEq,
    true_and]

theorem ASTFunction.codegenBody_eq_some {b b' : IRBuilder} :
    f.codegenBody b = some ((), b') ↔
      ∃ b₁, f.formals.zipIdx.forM f.codegenFormal b = some ((), b₁) ∧
      ∃ b₂, f.declarations.forM ASTDeclStmt.codegen b₁ = some ((), b₂) ∧
      ∃ b₃, ASTStmt.codegenList f.body b₂ = some ((), b₃) ∧ f.ret.codegen b₃ = some ((), b') := by
  have hbody : f.codegenBody = (do
      f.formals.zipIdx.forM f.codegenFormal
      f.declarations.forM ASTDeclStmt.codegen
      ASTStmt.codegenList f.body
      f.ret.codegen) := rfl
  simp only [hbody, run_bind_unit_eq_some]

/-- The code of the declarations of a well-typed function: it leaves every parameter and local
variable with its initial value. -/
theorem ASTFunction.exists_declares (hf : f.WellTyped Γ) {actuals : List Word}
    (hacc : f.Accepts Γ actuals) {φ : Frame} (hfr : φ.Passes f actuals)
    (functionIndex : String → Option ℕ) :
    ∃ b₁ b₂, f.formals.zipIdx.forM f.codegenFormal (IRBuilder.entry functionIndex) = some ((), b₁) ∧
      f.declarations.forM ASTDeclStmt.codegen b₁ = some ((), b₂) ∧
      Declares φ (f.initialValuation actuals) b₂ (f.localDecls.map ASTDeclNode.name) := by
  have hentry : Declares φ (f.initialValuation actuals) (IRBuilder.entry functionIndex) [] :=
    ⟨⟨_, _, prologue_entry functionIndex⟩, fun x ↦ by simp [IRBuilder.entry]⟩
  obtain ⟨b₁, hrun₁, hdecl₁⟩ := IRBuilder.Declares.formals hfr f.formals 0 hentry (by
      intro j d hd
      rw [Nat.zero_add]
      exact hacc.initialValuation_formal hf hd)
  rw [List.nil_append] at hdecl₁
  obtain ⟨b₂, hrun₂, hdecl₂⟩ := hdecl₁.declStmts f.declarations hf.vars_ne_nil
    (fun d hd ↦ ASTFunction.initialValuation_local hf hd)
  refine ⟨b₁, b₂, hrun₁, hrun₂, ?_⟩
  rw [ASTFunction.localDecls, List.map_append]
  exact hdecl₂

theorem IRBuilder.Declares.covers {φ : Frame} {vals : Valuation} {b : IRBuilder}
    {names : List String} (h : Declares φ vals b names) (hΓ : ∀ x, (Γ x).isSome ↔ x ∈ names) :
    b.Covers Γ := by
  intro x τ hx
  rw [← Option.isSome_iff_exists, ← Option.ne_none_iff_isSome]
  intro hnone
  exact (h.2 x).1 hnone ((hΓ x).1 (by simp [hx]))

/-- The code of the body and the return, from the state after the declarations, does what the direct
evaluation does. -/
theorem ASTFunction.simulates_body {F : Blocks} {φ : Frame} {addr : String → ℕ} {actuals : List Word}
    {n k : ℕ} {result : Machine.Evaluation Word Word} {b₂ b₃ b₄ : IRBuilder} {c : Config}
    (hf : f.WellTyped Γ) (hb : b₂.WellFormed)
    (hbody : ASTStmt.codegenList f.body b₂ = some ((), b₃)) (hret : f.ret.codegen b₃ = some ((), b₄))
    (hF : b₄.Within F) (hreach : Reaches (Config.step F φ) k (Config.initial F) c)
    (hc : Matches F Γ addr b₂ ⟨f.initialValuation actuals, []⟩ c)
    (hresult : f.evaluate actuals n = some result) :
    Machine.Simulates (Config.step F φ) Config.out (Config.initial F) n result := by
  obtain ⟨v, b₅, hv, rfl⟩ := ASTReturnStmt.codegen_eq_some.1 hret
  obtain ⟨τ, hτ⟩ := hf.ret
  have h₃ := (ASTStmt.codegenList_extends f.body hbody hb).wellFormed
  have hF₅ : b₅.Within F := hF.of_inserted
  have hF₃ : b₃.Within F := (f.ret.arg.codegen_extends hv h₃).1.within hF₅
  have hfollow := (ASTStmt.codegenList_follows (n := n) (φ := φ) f.body hbody hb hF₃ hf.body
    hc).after hreach
  rw [ASTFunction.evaluate] at hresult
  cases hexec : ASTStmt.execList n f.body ⟨f.initialValuation actuals, []⟩ with
  | undefined =>
    rw [hexec] at hresult
    cases hresult
  | cutOff out =>
    rw [hexec] at hresult hfollow
    cases hresult
    exact hfollow
  | done s =>
    rw [hexec] at hresult hfollow
    obtain ⟨w, hw, rfl⟩ := Option.map_eq_some_iff.1 hresult
    obtain ⟨k₁, c₁, hreach₁, hc₁⟩ := hfollow
    obtain ⟨k₂, c₂, hreach₂, hat₂, hkeep₂, hval⟩ := f.ret.arg.codegen_computes (φ := φ) hv h₃ hF₅ hτ
      hc₁.position hc₁.represents hw
    obtain ⟨rest, hrest, -⟩ := hat₂.inserted hF
    have hout : c₂.out = s.out := hkeep₂.out.trans hc₁.out
    have hstep : Config.step F φ c₂ = .halt (s.out, w) := by
      rw [Config.step_of_rest hrest]
      simp only [Config.execute, Config.word_advance, Config.word_of_operand hval,
        Option.bind_eq_bind, Option.bind_some, Option.getD_some, ← hout]
      rfl
    refine ⟨k₁ + k₂ + 1, ?_⟩
    rw [Machine.run_add (hreach₁.trans hreach₂), Machine.run, hstep]

/-- Code generation preserves meaning on the scalar core: a well-typed function is translated, and
for every valuation of its parameters for which no division is undefined its code behaves like the
direct evaluation of its tree. -/
theorem codegen_behavesLike (hf : f.WellTyped Γ) (functionIndex : String → Option ℕ) :
    ∃ F, f.codegen functionIndex = some F ∧ ∀ (actuals : List Word) (φ : Frame)
      (eval : ℕ → Machine.Evaluation Word Word), f.Accepts Γ actuals → φ.Passes f actuals →
      (∀ n, f.evaluate actuals n = some (eval n)) →
      Machine.BehavesLike (Config.step F φ) Config.out (Config.initial F) eval := by
  -- which builders the methods come to does not depend on the actuals
  have hbuild : ∃ b₁ b₂, f.formals.zipIdx.forM f.codegenFormal (IRBuilder.entry functionIndex) =
      some ((), b₁) ∧ f.declarations.forM ASTDeclStmt.codegen b₁ = some ((), b₂) ∧
      b₂.WellFormed ∧ b₂.Covers Γ := by
    have hacc : f.Accepts Γ (List.replicate f.formals.length 0) := by
      refine ⟨List.length_replicate, fun i d w τ _ hw _ _ ↦ ?_⟩
      exact .inl (List.eq_of_mem_replicate (List.mem_of_getElem? hw))
    obtain ⟨φ, hfr⟩ : ∃ φ : Frame, φ.Passes f (List.replicate f.formals.length 0) :=
      ⟨⟨_, _⟩, by unfold Frame.Passes; split_ifs <;> rfl⟩
    obtain ⟨b₁, b₂, hrun₁, hrun₂, hdecl⟩ := ASTFunction.exists_declares hf hacc hfr functionIndex
    obtain ⟨⟨allocas, code, hp⟩, -⟩ := id hdecl
    exact ⟨b₁, b₂, hrun₁, hrun₂, hp.wellFormed, hdecl.covers hf.declared⟩
  obtain ⟨b₁, b₂, hrun₁, hrun₂, hb₂, hcov₂⟩ := hbuild
  obtain ⟨b₃, hbody⟩ := ASTStmt.exists_codegenList f.body hf.body hb₂ hcov₂
  have h₃ := ASTStmt.codegenList_extends f.body hbody hb₂
  obtain ⟨τ, hτ⟩ := hf.ret
  obtain ⟨v, b₄, hv⟩ := f.ret.arg.exists_codegen false hτ h₃.wellFormed (h₃.covers hcov₂)
  have h₄ := (f.ret.arg.codegen_extends hv h₃.wellFormed).1
  have hret : f.ret.codegen b₃ = some ((), b₄.inserted (.ret v)) :=
    ASTReturnStmt.codegen_eq_some.2 ⟨v, b₄, hv, rfl⟩
  have hcode : f.codegenBody (IRBuilder.entry functionIndex) = some ((), b₄.inserted (.ret v)) :=
    ASTFunction.codegenBody_eq_some.2 ⟨b₁, hrun₁, b₂, hrun₂, b₃, hbody, hret⟩
  refine ⟨(b₄.inserted (.ret v)).blocks, ?_, ?_⟩
  · rw [ASTFunction.codegen, StateT.run, hcode]
    rfl
  · intro actuals φ eval hacc hfr heval
    refine Machine.behavesLike_of_simulates (observed_step _ φ) fun n ↦ ?_
    have hF : (b₄.inserted (.ret v)).Within (b₄.inserted (.ret v)).blocks :=
      fun _ ↦ List.prefix_rfl
    have hF₂ : b₂.Within (b₄.inserted (.ret v)).blocks :=
      ((h₃.trans h₄).inserted (.ret v)).within hF
    obtain ⟨b₁', b₂', hrun₁', hrun₂', hdecl⟩ := ASTFunction.exists_declares hf hacc hfr functionIndex
    rw [hrun₁] at hrun₁'
    cases hrun₁'
    rw [hrun₂] at hrun₂'
    cases hrun₂'
    obtain ⟨⟨allocas, code, hp⟩, -⟩ := id hdecl
    obtain ⟨k, c, hreach, hc⟩ := hp.matches hF₂ hcov₂
      (fun x τ hx ↦ hacc.holds_initialValuation hf hx)
    exact ASTFunction.simulates_body hf hb₂ hbody hret hF hreach hc (heval n)

end Function

/-- `sum(n, up) { var s; while (n > 0) { s = s + n; n--; } if (up) output s; return up ? s : -s; }` -/
def sumFunction : ASTFunction where
  node := 0
  decl := ⟨1, "sum"⟩
  formals := [⟨2, "n"⟩, ⟨3, "up"⟩]
  declarations := [⟨4, [⟨5, "s"⟩]⟩]
  body := [
    .whileStmt 6 (.binaryExpr 7 .gt (.variableExpr 8 "n") (.numberExpr 9 0)) (.blockStmt 10 [
      .assignStmt 11 (.variableExpr 12 "s")
        (.binaryExpr 13 .add (.variableExpr 14 "s") (.variableExpr 15 "n")),
      .updateStmt 16 (.variableExpr 17 "n") false]),
    .ifStmt 18 (.variableExpr 19 "up") (.outputStmt 20 (.variableExpr 21 "s")) none]
  ret := ⟨22, .ternaryExpr 23 (.variableExpr 24 "up") (.variableExpr 25 "s")
    (.negExpr 26 (.variableExpr 27 "s"))⟩
  isPoly := false

/-- The types of the names of `sumFunction`. -/
def sumTypes : TypeContext
  | "n" => some .int
  | "s" => some .int
  | "up" => some .bool
  | _ => none

theorem sumFunction_wellTyped : sumFunction.WellTyped sumTypes where
  nodup := by decide
  declared x := by
    unfold sumTypes
    split <;> simp_all [sumFunction, ASTFunction.localDecls]
  vars_ne_nil := by simp [sumFunction]
  body := by
    simp [sumFunction, ASTStmt.WellTypedList, ASTStmt.WellTyped, ASTExpr.HasType, sumTypes,
      ASTExpr.IsVariable, BinaryOp.HasType]
  ret := ⟨.int, by simp [sumFunction, ASTExpr.HasType, sumTypes]⟩

theorem codegen_behavesLike_sum : ∃ F, sumFunction.codegen (fun _ ↦ none) = some F ∧
    Machine.BehavesLike (Config.step F ⟨[1, 1], []⟩) Config.out (Config.initial F)
      fun n ↦ (sumFunction.evaluate [1, 1] n).getD (.cutOff []) := by
  obtain ⟨F, hF, hbehaves⟩ := codegen_behavesLike sumFunction_wellTyped fun _ ↦ none
  refine ⟨F, hF, hbehaves [1, 1] ⟨[1, 1], []⟩ _ ⟨rfl, ?_⟩ rfl ?_⟩
  · intro i d w τ hd hw _ _
    have := List.mem_of_getElem? hw
    simp at this
    exact .inr this
  · rintro (_ | _ | n)
    · rfl
    · rfl
    · rfl
end Sipc
