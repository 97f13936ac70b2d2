import Sipc.Codegen.ControlFlow
import Sipc.Codegen.Declarations
import Sipc.Codegen.ModuleExecution

/-!
# Code is only appended

A method of the code generator adds instructions at the insertion point, and in blocks that it makes
itself. The rest of the code stays as it is, and so do the tables, but for what is declared on the way
(`Llvm.Appends`). The class `Llvm.Appending` of the methods that do so is closed under sequences and
under the shapes of the control flow, and has the methods of all expressions and statements.
-/

set_option autoImplicit false
set_option relaxedAutoImplicit false

namespace Sipc.Llvm

open IR (Label)
open Library

/-- The blocks of the function at the insertion point. -/
def CodegenState.code (s : CodegenState) : List Block :=
  s.module.code s.insertFunction

/-- The insertion point is in a block. -/
def CodegenState.InBlock (s : CodegenState) : Prop :=
  s.insertBlock < s.code.length

/-- From `s` to `t`, code is added at the insertion point and in new blocks. -/
structure Appends (s t : CodegenState) : Prop where
  started : s.InBlock
  inBlock : t.InBlock
  insertFunction : t.insertFunction = s.insertFunction
  length : s.code.length ≤ t.code.length
  others : ∀ l < s.code.length, l ≠ s.insertBlock → blockAt t.code l = blockAt s.code l
  appended : blockAt s.code s.insertBlock <+: blockAt t.code s.insertBlock
  moved : t.insertBlock = s.insertBlock ∨ s.code.length ≤ t.insertBlock
  functions : ∀ (k : ℕ) (f : Function), k ≠ s.insertFunction → s.module.functions[k]? = some f →
    t.module.functions[k]? = some f
  args : ∀ (k : ℕ) (f : Function), s.module.functions[k]? = some f →
    ∃ g, t.module.functions[k]? = some g ∧ g.name = f.name ∧ g.args = f.args
  nextId : s.nextId ≤ t.nextId
  namedValues : t.namedValues = s.namedValues
  lValueGen : s.lValueGen = false → t.lValueGen = false
  functionIndex : t.functionIndex = s.functionIndex
  recordFields : t.recordFields = s.recordFields
  fieldIndex : ∀ f i, s.fieldIndex f = some i → t.fieldIndex f = some i
  intrinsics : ∀ i r, s.intrinsics i = some r → t.intrinsics i = some r
  nop : t.nop = s.nop
  calloc : t.calloc = s.calloc
  serial : t.serial = s.serial

section Appends

variable {s t u : CodegenState} {l : ℕ}

theorem Appends.refl (h : s.InBlock) : Appends s s where
  started := h
  inBlock := h
  insertFunction := rfl
  length := le_rfl
  others _ _ _ := rfl
  appended := List.prefix_refl _
  moved := .inl rfl
  functions _ _ _ hf := hf
  args _ f hf := ⟨f, hf, rfl, rfl⟩
  nextId := le_rfl
  namedValues := rfl
  lValueGen := id
  functionIndex := rfl
  recordFields := rfl
  fieldIndex _ _ := id
  intrinsics _ _ := id
  nop := rfl
  calloc := rfl
  serial := rfl

theorem Appends.trans (h : Appends s t) (h' : Appends t u) : Appends s u where
  started := h.started
  inBlock := h'.inBlock
  insertFunction := h'.insertFunction.trans h.insertFunction
  length := h.length.trans h'.length
  others l hl hne := by
    refine (h'.others l (hl.trans_le h.length) ?_).trans (h.others l hl hne)
    rintro rfl
    rcases h.moved with heq | hge
    · exact hne heq
    · exact absurd hl (Nat.not_lt_of_le hge)
  appended := by
    refine h.appended.trans ?_
    by_cases heq : t.insertBlock = s.insertBlock
    · rw [← heq]
      exact h'.appended
    · rw [h'.others _ (h.started.trans_le h.length) fun h ↦ heq h.symm]
  moved := by
    rcases h'.moved with heq | hge
    · rw [heq]
      exact h.moved
    · exact .inr (h.length.trans hge)
  functions k f hk hf := h'.functions k f (by rwa [h.insertFunction]) (h.functions k f hk hf)
  args k f hf := by
    obtain ⟨g, hg, hname, hargs⟩ := h.args k f hf
    obtain ⟨g', hg', hname', hargs'⟩ := h'.args k g hg
    exact ⟨g', hg', hname'.trans hname, hargs'.trans hargs⟩
  nextId := h.nextId.trans h'.nextId
  namedValues := h'.namedValues.trans h.namedValues
  lValueGen hs := h'.lValueGen (h.lValueGen hs)
  functionIndex := h'.functionIndex.trans h.functionIndex
  recordFields := h'.recordFields.trans h.recordFields
  fieldIndex f i hi := h'.fieldIndex f i (h.fieldIndex f i hi)
  intrinsics i r hr := h'.intrinsics i r (h.intrinsics i r hr)
  nop := h'.nop.trans h.nop
  calloc := h'.calloc.trans h.calloc
  serial := h'.serial.trans h.serial

/-- The block is there and empty, and is not at the insertion point. -/
structure CodegenState.Awaits (s : CodegenState) (l : ℕ) : Prop where
  isBlock : l < s.code.length
  ne : l ≠ s.insertBlock
  isEmpty : blockAt s.code l = []

/-- A block is left for later. -/
theorem CodegenState.Awaits.later (hl : s.Awaits l) (h : Appends s t) : t.Awaits l where
  isBlock := hl.isBlock.trans_le h.length
  ne := by
    rcases h.moved with heq | hge
    · rw [heq]
      exact hl.ne
    · exact (hl.isBlock.trans_le hge).ne
  isEmpty := (h.others l hl.isBlock hl.ne).trans hl.isEmpty

/-- The state after the block is ended and the insertion point moves. -/
def CodegenState.jump (s : CodegenState) (i : Instruction) (l : ℕ) : CodegenState :=
  { s.insert i with insertBlock := l }

end Appends

/-! ### Steps -/

section Steps

variable {s : CodegenState} {i : Instruction}

theorem CodegenState.code_modify (f : List Block → List Block) {t : CodegenState}
    (hfunction : t.insertFunction = s.insertFunction) (hmodule : t.module.functions =
      s.module.functions.modify s.insertFunction fun g ↦ { g with blocks := f g.blocks })
    (h : s.InBlock) : t.code = f s.code := by
  unfold InBlock code Module.code at h
  unfold code Module.code
  rw [hfunction, hmodule, List.getElem?_modify_eq]
  cases hs : s.module.functions[s.insertFunction]? with
  | none =>
    rw [hs] at h
    exact absurd h (Nat.not_lt_zero _)
  | some g => rfl

theorem CodegenState.code_addBlock (h : s.InBlock) :
    ({ s with module := s.module.addBlock s.insertFunction } : CodegenState).code = s.code ++ [[]] :=
  code_modify (fun bs ↦ bs ++ [[]]) rfl rfl h

/-- The blocks of the function are changed. -/
theorem Appends.of_modify {t : CodegenState} (f : List Block → List Block) (h : s.InBlock)
    (hmodule : t.module.functions =
      s.module.functions.modify s.insertFunction fun g ↦ { g with blocks := f g.blocks })
    (hlength : s.code.length ≤ (f s.code).length)
    (hothers : ∀ l < s.code.length, l ≠ s.insertBlock → blockAt (f s.code) l = blockAt s.code l)
    (happended : blockAt s.code s.insertBlock <+: blockAt (f s.code) s.insertBlock)
    (hnext : s.nextId ≤ t.nextId)
    (hrest : t = { s with module := t.module, nextId := t.nextId }) : Appends s t := by
  have hfunction : t.insertFunction = s.insertFunction := by rw [hrest]
  have hblock : t.insertBlock = s.insertBlock := by rw [hrest]
  have hcode := CodegenState.code_modify f hfunction hmodule h
  have hself (k : ℕ) (g : Function) (hg : s.module.functions[k]? = some g) :
      ∃ g', t.module.functions[k]? = some g' ∧ g'.name = g.name ∧ g'.args = g.args := by
    rw [hmodule, List.getElem?_modify, hg]
    by_cases hk : s.insertFunction = k
    · exact ⟨{ g with blocks := f g.blocks }, by simp [hk], rfl, rfl⟩
    · exact ⟨g, by simp [hk], rfl, rfl⟩
  constructor
  case started => exact h
  case inBlock =>
    unfold CodegenState.InBlock
    rw [hcode, hblock]
    exact h.trans_le hlength
  case insertFunction => exact hfunction
  case length => rwa [hcode]
  case others => rwa [hcode]
  case appended => rwa [hcode]
  case moved => exact .inl hblock
  case functions =>
    intro k g hk hg
    rw [hmodule, List.getElem?_modify, hg]
    simp [hk.symm]
  case args => exact hself
  case nextId => exact hnext
  case lValueGen =>
    rw [hrest]
    exact id
  case fieldIndex | intrinsics =>
    rw [hrest]
    exact fun _ _ ↦ id
  all_goals rw [hrest]

theorem appends_insert (h : s.InBlock) (i : Instruction) : Appends s (s.insert i) := by
  refine .of_modify (fun bs ↦ bs.modify s.insertBlock fun b ↦ b ++ [(s.nextId, i)]) h rfl ?_ ?_ ?_
    (Nat.le_succ _) rfl
  · rw [List.length_modify]
  · exact fun l _ hl ↦ blockAt_modify_of_ne hl
  · rw [blockAt_modify_self h]
    exact List.prefix_append _ _

theorem appends_addBlock (h : s.InBlock) :
    Appends s { s with module := s.module.addBlock s.insertFunction } := by
  refine .of_modify (fun bs ↦ bs ++ [[]]) h rfl ?_ ?_ ?_ le_rfl rfl
  · rw [List.length_append]
    exact Nat.le_add_right _ _
  · exact fun l _ _ ↦ blockAt_append_nil
  · rw [blockAt_append_nil]

/-- The number of a new block. -/
theorem CodegenState.blockCount_eq (s : CodegenState) :
    ((s.module.functions[s.insertFunction]?.map fun f ↦ f.blocks.length).getD 0) = s.code.length := by
  unfold code Module.code
  cases s.module.functions[s.insertFunction]? <;> rfl

theorem appends_create (h : s.InBlock) (name : String) (params : List String) (r : Kind) :
    Appends s (s.create name params r) := by
  have hold {k : ℕ} {f : Function} (hf : s.module.functions[k]? = some f) :
      (s.create name params r).module.functions[k]? = some f := by
    change (s.module.functions ++ [_])[k]? = some f
    rw [List.getElem?_append_left (List.getElem?_eq_some_iff.1 hf).1]
    exact hf
  have hcode : (s.create name params r).code = s.code := by
    unfold CodegenState.InBlock CodegenState.code Module.code at h
    unfold CodegenState.code Module.code
    cases hs : s.module.functions[s.insertFunction]? with
    | none =>
      rw [hs] at h
      exact absurd h (Nat.not_lt_zero _)
    | some f => rw [show (s.create name params r).insertFunction = s.insertFunction from rfl, hold hs]
  constructor
  case started => exact h
  case inBlock =>
    unfold CodegenState.InBlock
    rw [hcode]
    exact h
  case length => rw [hcode]
  case others =>
    rw [hcode]
    exact fun _ _ _ ↦ rfl
  case appended => rw [hcode]
  case functions => exact fun k f _ hf ↦ hold hf
  case args => exact fun k f hf ↦ ⟨f, hold hf, rfl, rfl⟩
  case moved => exact .inl rfl
  case nextId => exact le_rfl
  case lValueGen => exact id
  case fieldIndex | intrinsics => exact fun _ _ ↦ id
  all_goals rfl

/-- The insertion point moves to a new block. -/
theorem Appends.jump {t : CodegenState} {l : ℕ} (h : Appends s t) (i : Instruction)
    (hl : s.code.length ≤ l) (ht : t.Awaits l) : Appends s (t.jump i l) :=
  { h.trans (appends_insert h.inBlock i) with
    inBlock := (ht.later (appends_insert h.inBlock i)).isBlock
    moved := .inr hl }

theorem CodegenState.Awaits.jump {i : Instruction} {l m : ℕ} (hl : s.Awaits l) (h : s.InBlock)
    (hne : l ≠ m) : (s.jump i m).Awaits l :=
  { hl.later (appends_insert h i) with ne := hne }

/-- From `s`, code is added, and the insertion point moves to an empty block. -/
structure CodegenState.Enters (s t : CodegenState) : Prop where
  appends : Appends s t
  isEmpty : blockAt t.code t.insertBlock = []

theorem Appends.enters {t : CodegenState} {l : ℕ} (h : Appends s t) (i : Instruction)
    (hl : s.code.length ≤ l) (ht : t.Awaits l) : s.Enters (t.jump i l) where
  appends := h.jump i hl ht
  isEmpty := (ht.later (appends_insert h.inBlock i)).isEmpty

/-- Three blocks are made. -/
structure CodegenState.Prepares (s t : CodegenState) : Prop where
  appends : Appends s t
  insertBlock : t.insertBlock = s.insertBlock
  code : t.code = s.code ++ [[], [], []]

theorem CodegenState.Prepares.blockAt {t : CodegenState} (h : s.Prepares t) (l : ℕ) :
    blockAt t.code l = Library.blockAt s.code l := by
  rw [h.code, show [[], [], []] = [[]] ++ [[]] ++ [([] : Block)] from rfl, ← List.append_assoc,
    ← List.append_assoc, blockAt_append_nil, blockAt_append_nil, blockAt_append_nil]

theorem CodegenState.Prepares.awaits {t : CodegenState} (h : s.Prepares t) {k : ℕ} (hk : k < 3) :
    t.Awaits (s.code.length + k) where
  isBlock := by
    rw [h.code, List.length_append]
    exact Nat.add_lt_add_left hk _
  ne := by
    rw [h.insertBlock]
    exact (h.appends.started.trans_le (Nat.le_add_right _ _)).ne'
  isEmpty := by
    rw [h.blockAt]
    exact Library.blockAt_eq_nil (Nat.le_add_right _ _)

theorem returns_prepare {α : Type} {f : Label → Label → Label → Generate α} {a : α}
    {t : CodegenState} (h : s.InBlock)
    (hreturns : Run.Returns (do
      let first ← createBlock
      let second ← createBlock
      let third ← createBlock
      f first second third) s a t) :
    ∃ u, s.Prepares u ∧
      Run.Returns (f s.code.length (s.code.length + 1) (s.code.length + 2)) u a t := by
  have h₁ := appends_addBlock h
  have h₂ := appends_addBlock h₁.inBlock
  have h₃ := appends_addBlock h₂.inBlock
  have hcode₁ := CodegenState.code_addBlock h
  have hcode₂ := CodegenState.code_addBlock h₁.inBlock
  have hcode₃ := CodegenState.code_addBlock h₂.inBlock
  rw [returns_createBlock.bind_iff, returns_createBlock.bind_iff, returns_createBlock.bind_iff,
    CodegenState.blockCount_eq, CodegenState.blockCount_eq, CodegenState.blockCount_eq,
    hcode₁] at hreturns
  rw [hcode₂, hcode₁] at hreturns
  refine ⟨_, ⟨(h₁.trans h₂).trans h₃, rfl, ?_⟩, ?_⟩
  rotate_left
  · simpa only [List.length_append, List.length_singleton] using hreturns
  · rw [hcode₃, hcode₂, hcode₁]
    simp

end Steps

/-! ### Methods -/

/-- The method appends code. -/
class Appending {α : Type} (m : Generate α) : Prop where
  appends : ∀ {s t : CodegenState} {a : α}, s.InBlock → Run.Returns m s a t → Appends s t

section Methods

variable {α β γ : Type} {m : Generate α} {f : α → Generate β}

theorem Appends.step {s t u : CodegenState} {a : α} [Appending m] (h : Appends s t)
    (hreturns : Run.Returns m t a u) : Appends s u :=
  h.trans (Appending.appends h.inBlock hreturns)

instance (a : α) : Appending (pure a : Generate α) where
  appends h hreturns := by
    obtain ⟨-, rfl⟩ := Run.returns_pure.1 hreturns
    exact .refl h

theorem appending_bind (hm : Appending m) (hf : ∀ a, Appending (f a)) : Appending (m >>= f) where
  appends h hreturns := by
    obtain ⟨a, t, hm, hf⟩ := Run.returns_bind.1 hreturns
    exact (Appending.appends h hm).step hf

instance [Appending m] [∀ a, Appending (f a)] : Appending (m >>= f) :=
  appending_bind inferInstance fun _ ↦ inferInstance

instance (e : InternalError) : Appending (Run.fail e : Generate α) where
  appends _ hreturns := absurd hreturns Run.not_returns_fail

instance (e : InternalError) (o : Option α) : Appending (Run.orFail e o : Generate α) where
  appends h hreturns := by
    obtain ⟨-, rfl⟩ := Run.returns_orFail.1 hreturns
    exact .refl h

instance (ev : GenEvent) : Appending (Run.emit ev : Generate Unit) where
  appends h hreturns := by
    obtain rfl := Run.returns_emit.1 hreturns
    exact .refl h

instance : Appending get where
  appends h hreturns := by
    obtain ⟨rfl, rfl⟩ := returns_get.unique hreturns
    exact .refl h

instance (i : Instruction) : Appending (emit i) where
  appends h hreturns := by
    obtain ⟨-, rfl⟩ := Prod.mk.inj (Run.returns_access.1 hreturns)
    exact appends_insert h i

instance (i : Instruction) : Appending (emitUnit i) where
  appends h hreturns := by
    obtain ⟨-, rfl⟩ := returns_emitUnit.unique hreturns
    exact appends_insert h i

instance (i : Intrinsic) : Appending (intrinsic i) where
  appends h hreturns := by
    rename_i s t r
    unfold intrinsic at hreturns
    rw [returns_get.bind_iff] at hreturns
    cases hi : s.intrinsics i with
    | some f =>
      rw [hi] at hreturns
      obtain ⟨-, rfl⟩ := Run.returns_pure.1 hreturns
      exact .refl h
    | none =>
      simp only [hi] at hreturns
      rw [returns_createFunction.bind_iff, returns_modify.bind_iff] at hreturns
      obtain ⟨-, rfl⟩ := Run.returns_pure.1 hreturns
      have hcreate := appends_create h i.symbol [] .int
      refine { hcreate with intrinsics := fun j r hr ↦ ?_ }
      change Function.update s.intrinsics i _ j = some r
      rw [Function.update_of_ne, hr]
      rintro rfl
      rw [hi] at hr
      cases hr

instance : Appending callNop := by
  unfold callNop
  infer_instance

instance (items size : Operand) : Appending (callCalloc items size) := by
  unfold callCalloc
  infer_instance

instance (field : String) : Appending (fieldSlot field) where
  appends h hreturns := by
    rename_i s t i
    have hret := Run.returns_access.1 hreturns
    cases hi : s.fieldIndex field with
    | some k =>
      rw [hi] at hret
      obtain ⟨-, rfl⟩ := Prod.mk.inj hret
      exact .refl h
    | none =>
      rw [hi] at hret
      obtain ⟨-, rfl⟩ := Prod.mk.inj hret
      refine { Appends.refl h with fieldIndex := fun g k hk ↦ ?_ }
      change Function.update s.fieldIndex field (some 0) g = some k
      rw [Function.update_of_ne, hk]
      rintro rfl
      rw [hi] at hk
      cases hk

instance (b : Bool) : Appending (modify fun s ↦ { s with allocFlag := b }) where
  appends h hreturns := by
    obtain ⟨-, rfl⟩ := returns_modify.unique hreturns
    exact { Appends.refl h with }

instance : Appending takeLValue where
  appends h hreturns := by
    unfold takeLValue at hreturns
    rw [returns_get.bind_iff, returns_modify.bind_iff] at hreturns
    obtain ⟨-, rfl⟩ := Run.returns_pure.1 hreturns
    exact { Appends.refl h with lValueGen := fun _ ↦ rfl }

/-- The flag is set only while the code of the expression is generated. -/
instance (e : ASTExpr) {code : Generate Operand} [Appending code] : Appending (address e code) where
  appends h hreturns := by
    rename_i s t v
    unfold address at hreturns
    rw [returns_modify.bind_iff] at hreturns
    obtain ⟨v, u, hcode, hreturns⟩ := Run.returns_bind.1 hreturns
    rw [returns_modify.bind_iff] at hreturns
    obtain ⟨_, w, hev, hreturns⟩ := Run.returns_bind.1 hreturns
    obtain rfl := Run.returns_emit.1 hev
    obtain ⟨-, rfl⟩ := Run.returns_pure.1 hreturns
    have hinner : Appends { s with lValueGen := true } u := Appending.appends h hcode
    exact { hinner with lValueGen := fun _ ↦ rfl }

end Methods

/-! ### Control flow -/

section Shapes

variable {α β γ : Type} {s t : CodegenState}

/-- The states on the way through the code of a loop. -/
theorem returns_loop {pre : Generate α} {head : α → Generate β} {cond : β → Operand}
    {body : α → β → Generate Unit} {rest : α → β → Generate γ} {c : γ} [Appending pre]
    [∀ a, Appending (head a)] [∀ a b, Appending (body a b)] (h : s.InBlock)
    (hreturns : Run.Returns (loop pre head cond body rest) s c t) :
    ∃ s₀ a s₁ b s₂ s₃, s.Prepares s₀ ∧ Run.Returns pre s₀ a s₁ ∧
      s.Enters (s₁.jump (.br s.code.length) s.code.length) ∧
      Run.Returns (head a) (s₁.jump (.br s.code.length) s.code.length) b s₂ ∧
      s.Enters (s₂.jump (.condBr (cond b) (s.code.length + 1) (s.code.length + 2))
        (s.code.length + 1)) ∧
      Run.Returns (body a b) (s₂.jump (.condBr (cond b) (s.code.length + 1) (s.code.length + 2))
        (s.code.length + 1)) () s₃ ∧
      s.Enters (s₃.jump (.br s.code.length) (s.code.length + 2)) ∧
      Run.Returns (rest a b) (s₃.jump (.br s.code.length) (s.code.length + 2)) c t := by
  unfold loop at hreturns
  obtain ⟨s₀, hs₀, hreturns⟩ := returns_prepare h hreturns
  obtain ⟨a, s₁, hpre, hreturns⟩ := Run.returns_bind.1 hreturns
  rw [returns_emitUnit.bind_iff, returns_setInsertPoint.bind_iff] at hreturns
  obtain ⟨b, s₂, hhead, hreturns⟩ := Run.returns_bind.1 hreturns
  rw [returns_emitUnit.bind_iff, returns_setInsertPoint.bind_iff] at hreturns
  obtain ⟨_, s₃, hbody, hreturns⟩ := Run.returns_bind.1 hreturns
  rw [returns_emitUnit.bind_iff, returns_setInsertPoint.bind_iff] at hreturns
  -- the header
  have h₁ := Appending.appends hs₀.appends.inBlock hpre
  have hheader : s.Enters (s₁.jump (.br s.code.length) s.code.length) :=
    (hs₀.appends.trans h₁).enters _ le_rfl ((hs₀.awaits (k := 0) (by decide)).later h₁)
  have h₂ := Appending.appends hheader.appends.inBlock hhead
  -- the body
  have hbody₂ := (((hs₀.awaits (k := 1) (by decide)).later h₁).jump (i := .br s.code.length)
    (m := s.code.length) h₁.inBlock (by omega)).later h₂
  have hstart : s.Enters (s₂.jump (.condBr (cond b) (s.code.length + 1) (s.code.length + 2))
      (s.code.length + 1)) :=
    (hheader.appends.trans h₂).enters _ (Nat.le_add_right _ 1) hbody₂
  have h₃ := Appending.appends hstart.appends.inBlock hbody
  -- the exit
  have hexit₂ := (((hs₀.awaits (k := 2) (by decide)).later h₁).jump (i := .br s.code.length)
    (m := s.code.length) h₁.inBlock (by omega)).later h₂
  have hexit₃ := (hexit₂.jump (i := .condBr (cond b) (s.code.length + 1) (s.code.length + 2))
    (m := s.code.length + 1) h₂.inBlock (by omega)).later h₃
  exact ⟨s₀, a, s₁, b, s₂, s₃, hs₀, hpre, hheader, hhead, hstart, hbody,
    (hstart.appends.trans h₃).enters _ (Nat.le_add_right _ 2) hexit₃, hreturns⟩

/-- The states on the way through two branches. -/
theorem returns_choice {condVal : Operand} {thenCode : Generate α} {elseCode : Generate β}
    {rest : α → Label → β → Label → Generate γ} {c : γ} [Appending thenCode] [Appending elseCode]
    (h : s.InBlock) (hreturns : Run.Returns (choice condVal thenCode elseCode rest) s c t) :
    ∃ s₀ s₁ a s₂ b s₃, s.Prepares s₀ ∧
      s₁ = (s₀.insert (.icmp .ne condVal (.const 0))).jump
        (.condBr (.result s₀.nextId .bit) s.code.length (s.code.length + 1)) s.code.length ∧
      s.Enters s₁ ∧ Run.Returns thenCode s₁ a s₂ ∧
      s.Enters (s₂.jump (.br (s.code.length + 2)) (s.code.length + 1)) ∧
      Run.Returns elseCode (s₂.jump (.br (s.code.length + 2)) (s.code.length + 1)) b s₃ ∧
      s.Enters (s₃.jump (.br (s.code.length + 2)) (s.code.length + 2)) ∧
      Run.Returns (rest a s₂.insertBlock b s₃.insertBlock)
        (s₃.jump (.br (s.code.length + 2)) (s.code.length + 2)) c t := by
  unfold choice at hreturns
  obtain ⟨s₀, hs₀, hreturns⟩ := returns_prepare h hreturns
  rw [branchOn, bind_assoc, returns_emit.bind_iff, returns_emitUnit.bind_iff,
    returns_setInsertPoint.bind_iff] at hreturns
  obtain ⟨a, s₂, hthen, hreturns⟩ := Run.returns_bind.1 hreturns
  rw [returns_emitUnit.bind_iff, returns_getInsertBlock.bind_iff,
    returns_setInsertPoint.bind_iff] at hreturns
  obtain ⟨b, s₃, helse, hreturns⟩ := Run.returns_bind.1 hreturns
  rw [returns_emitUnit.bind_iff, returns_getInsertBlock.bind_iff,
    returns_setInsertPoint.bind_iff] at hreturns
  set s₁ := (s₀.insert (.icmp .ne condVal (.const 0))).jump
    (.condBr (.result s₀.nextId .bit) s.code.length (s.code.length + 1)) s.code.length with hs₁
  -- the first branch
  have hcmp := appends_insert hs₀.appends.inBlock (.icmp .ne condVal (.const 0))
  have hstart : s.Enters s₁ :=
    (hs₀.appends.trans hcmp).enters _ le_rfl ((hs₀.awaits (k := 0) (by decide)).later hcmp)
  have h₂ := Appending.appends hstart.appends.inBlock hthen
  have hlater {k : ℕ} (hk : k < 3) (hk0 : k ≠ 0) : s₂.Awaits (s.code.length + k) :=
    (((hs₀.awaits hk).later hcmp).jump hcmp.inBlock (by omega)).later h₂
  -- the second branch
  have hstart' : s.Enters (s₂.jump (.br (s.code.length + 2)) (s.code.length + 1)) :=
    (hstart.appends.trans h₂).enters _ (Nat.le_add_right _ 1) (hlater (by decide) (by decide))
  have h₃ := Appending.appends hstart'.appends.inBlock helse
  have hmerge := ((hlater (k := 2) (by decide) (by decide)).jump (i := .br (s.code.length + 2))
    (m := s.code.length + 1) h₂.inBlock (by omega)).later h₃
  exact ⟨s₀, s₁, a, s₂, b, s₃, hs₀, hs₁, hstart, hthen, hstart', helse,
    (hstart'.appends.trans h₃).enters _ (Nat.le_add_right _ 2) hmerge, hreturns⟩

/-- The states on the way through a check. -/
theorem returns_check {isFailure : Operand} {failure : Generate Unit} {success : Generate α}
    {rest : α → Label → Generate γ} {c : γ} [Appending failure] [Appending success] (h : s.InBlock)
    (hreturns : Run.Returns (check isFailure failure success rest) s c t) :
    ∃ s₀ s₁ a s₂, s.Prepares s₀ ∧
      s.Enters (s₀.jump (.condBr isFailure (s.code.length + 1) s.code.length) (s.code.length + 1)) ∧
      Run.Returns failure (s₀.jump (.condBr isFailure (s.code.length + 1) s.code.length)
        (s.code.length + 1)) () s₁ ∧
      s.Enters (s₁.jump .unreachable s.code.length) ∧
      Run.Returns success (s₁.jump .unreachable s.code.length) a s₂ ∧
      s.Enters (s₂.jump (.br (s.code.length + 2)) (s.code.length + 2)) ∧
      Run.Returns (rest a s.code.length) (s₂.jump (.br (s.code.length + 2)) (s.code.length + 2)) c t := by
  unfold check at hreturns
  obtain ⟨s₀, hs₀, hreturns⟩ := returns_prepare h hreturns
  rw [returns_emitUnit.bind_iff, returns_setInsertPoint.bind_iff] at hreturns
  obtain ⟨_, s₁, hfailure, hreturns⟩ := Run.returns_bind.1 hreturns
  rw [returns_emitUnit.bind_iff, returns_setInsertPoint.bind_iff] at hreturns
  obtain ⟨a, s₂, hsuccess, hreturns⟩ := Run.returns_bind.1 hreturns
  rw [returns_emitUnit.bind_iff, returns_setInsertPoint.bind_iff] at hreturns
  have hstart : s.Enters (s₀.jump (.condBr isFailure (s.code.length + 1) s.code.length)
      (s.code.length + 1)) :=
    hs₀.appends.enters _ (Nat.le_add_right _ 1) (hs₀.awaits (by decide))
  have h₁ := Appending.appends hstart.appends.inBlock hfailure
  have hlater {k : ℕ} (hk : k < 3) (hk1 : k ≠ 1) : s₁.Awaits (s.code.length + k) :=
    ((hs₀.awaits hk).jump hs₀.appends.inBlock (by omega)).later h₁
  have hstart' : s.Enters (s₁.jump .unreachable s.code.length) :=
    (hstart.appends.trans h₁).enters _ le_rfl (hlater (k := 0) (by decide) (by decide))
  have h₂ := Appending.appends hstart'.appends.inBlock hsuccess
  have hcontinue := ((hlater (k := 2) (by decide) (by decide)).jump (i := .unreachable)
    (m := s.code.length) h₁.inBlock (by omega)).later h₂
  exact ⟨s₀, s₁, a, s₂, hs₀, hstart, hfailure, hstart', hsuccess,
    (hstart'.appends.trans h₂).enters _ (Nat.le_add_right _ 2) hcontinue, hreturns⟩

theorem appending_loop {pre : Generate α} {head : α → Generate β} {cond : β → Operand}
    {body : α → β → Generate Unit} {rest : α → β → Generate γ} (hpre : Appending pre)
    (hhead : ∀ a, Appending (head a)) (hbody : ∀ a b, Appending (body a b))
    (hrest : ∀ a b, Appending (rest a b)) : Appending (loop pre head cond body rest) where
  appends h hreturns := by
    obtain ⟨_, _, _, _, _, _, -, -, -, -, -, -, hexit, hend⟩ := returns_loop h hreturns
    exact hexit.appends.step hend

instance {condVal : Operand} {thenCode : Generate α} {elseCode : Generate β}
    {rest : α → Label → β → Label → Generate γ} [Appending thenCode] [Appending elseCode]
    [∀ a l b l', Appending (rest a l b l')] : Appending (choice condVal thenCode elseCode rest) where
  appends h hreturns := by
    obtain ⟨_, _, _, _, _, _, -, -, -, -, -, -, hmerge, hrest⟩ := returns_choice h hreturns
    exact hmerge.appends.step hrest

instance {isFailure : Operand} {failure : Generate Unit} {success : Generate α}
    {rest : α → Label → Generate γ} [Appending failure] [Appending success]
    [∀ a l, Appending (rest a l)] : Appending (check isFailure failure success rest) where
  appends h hreturns := by
    obtain ⟨_, _, _, _, -, -, -, -, -, hcontinue, hrest⟩ := returns_check h hreturns
    exact hcontinue.appends.step hrest

end Shapes

/-! ### Expressions and statements -/

section Nodes

instance {α : Type} {c : Prop} [Decidable c] {m m' : Generate α} [Appending m] [Appending m'] :
    Appending (if c then m else m') := by
  split_ifs <;> infer_instance

instance (op : BinaryOp) (l r : Operand) : Appending (op.generate l r) := by
  cases op <;> (dsimp only [BinaryOp.generate]; infer_instance)

instance (name : String) : Appending (generateVariable name) where
  appends h hreturns := by
    unfold generateVariable at hreturns
    rw [returns_get.bind_iff] at hreturns
    split at hreturns
    · exact Appending.appends h hreturns
    · split at hreturns
      · exact Appending.appends h hreturns
      · exact absurd hreturns Run.not_returns_fail

instance (isLValue : Bool) (arrayPtr length indexVal : Operand) :
    Appending (generateElement isLValue arrayPtr length indexVal) := by
  have hfailure : Appending outOfBounds := by
    unfold outOfBounds
    infer_instance
  have hsuccess : Appending (elementAddress arrayPtr indexVal) := by
    unfold elementAddress
    infer_instance
  have hrest (elementPtr : Operand) (inBounds : Label) :
      Appending (finishElement isLValue elementPtr inBounds) := by
    unfold finishElement
    infer_instance
  rw [generateElement_eq]
  infer_instance

theorem appending_entered (e : ASTExpr) {α : Type} {code : Generate α} (h : Appending code) :
    Appending (get >>= fun s ↦ Run.emit (.entered e s.lValueGen s.allocFlag) >>= fun _ ↦ code) :=
  inferInstance

/-- The flag that is taken is put back before the element is computed. -/
theorem appending_indexing (n : NodeId) {arr idx : ASTExpr} (harr : Appending arr.generate)
    (hidx : Appending idx.generate) : Appending (ASTExpr.indexingExpr n arr idx).generate where
  appends h hreturns := by
    rename_i s t v
    rw [ASTExpr.generate, returns_get.bind_iff] at hreturns
    obtain ⟨_, s₁, hev, hreturns⟩ := Run.returns_bind.1 hreturns
    obtain rfl := Run.returns_emit.1 hev
    obtain ⟨isLValue, s₂, htake, hreturns⟩ := Run.returns_bind.1 hreturns
    have h₂ := Appending.appends h htake
    have hflag : s.lValueGen = isLValue := by
      unfold takeLValue at htake
      rw [returns_get.bind_iff, returns_modify.bind_iff] at htake
      exact (Run.returns_pure.1 htake).1
    obtain ⟨arrayVal, s₃, hcode, hreturns⟩ := Run.returns_bind.1 hreturns
    have h₃ := h₂.step hcode
    rw [returns_emit.bind_iff, returns_emit.bind_iff] at hreturns
    have hptr := h₃.trans (appends_insert h₃.inBlock (.intToPtr arrayVal))
    have hlength := hptr.trans (appends_insert hptr.inBlock (.load (.result s₃.nextId .converted)))
    obtain ⟨indexVal, s₄, hcode', hreturns⟩ := Run.returns_bind.1 hreturns
    have h₄ := hlength.step hcode'
    rw [returns_modify.bind_iff] at hreturns
    have h₅ : Appends s { s₄ with lValueGen := isLValue } :=
      { h₄ with lValueGen := fun hs ↦ hflag.symm.trans hs }
    exact h₅.step hreturns

end Nodes
end Sipc.Llvm

namespace Sipc

open Llvm Library

mutual

/-- The code of an expression is only appended. The cases are those of the generator. -/
theorem ASTExpr.appending_generate : ∀ e : ASTExpr, Appending e.generate
  | .numberExpr _ _ | .boolExpr _ _ | .inputExpr _ | .nullExpr _ | .variableExpr _ _ => by
    rw [ASTExpr.generate]
    infer_instance
  | .binaryExpr _ _ left right => by
    have hleft := left.appending_generate
    have hright := right.appending_generate
    rw [ASTExpr.generate]
    infer_instance
  | .notExpr _ arg | .negExpr _ arg | .deRefExpr _ arg | .arrayLenExpr _ arg | .allocExpr _ arg
  | .refExpr _ arg => by
    have harg := arg.appending_generate
    rw [ASTExpr.generate]
    infer_instance
  | .accessExpr _ record _ => by
    have hrecord := record.appending_generate
    rw [ASTExpr.generate]
    exact appending_entered _ inferInstance
  | .funAppExpr _ function actuals => by
    have hfunction := function.appending_generate
    have hactuals := ASTExpr.appending_generateList actuals
    rw [ASTExpr.generate]
    infer_instance
  | .recordExpr _ fields => by
    have hfields (record : Operand) := ASTExpr.appending_generateFields fields record
    rw [ASTExpr.generate]
    refine appending_entered _ (appending_bind inferInstance fun s ↦ ?_)
    split_ifs <;> infer_instance
  | .ternaryExpr n condition thenExpr elseExpr => by
    have hcondition := condition.appending_generate
    have hthen := thenExpr.appending_generate
    have helse := elseExpr.appending_generate
    rw [generate_ternaryExpr]
    infer_instance
  | .arrayExpr _ elements => by
    have helements (int64Ptr : Operand) := ASTExpr.appending_generateElements elements int64Ptr 0
    rw [ASTExpr.generate]
    infer_instance
  | .arrayOfExpr n e1 e2 => by
    have hsize := e1.appending_generate
    have helement := e2.appending_generate
    rw [generate_arrayOfExpr]
    refine appending_entered _ (appending_bind hsize fun _ ↦ appending_bind inferInstance fun _ ↦ ?_)
    refine appending_bind inferInstance fun _ ↦ appending_bind inferInstance fun _ ↦ ?_
    refine appending_bind inferInstance fun _ ↦ appending_bind inferInstance fun _ ↦ ?_
    exact appending_loop inferInstance (fun _ ↦ inferInstance) (fun _ (_, _) ↦ inferInstance)
      fun _ _ ↦ inferInstance
  | .indexingExpr n arr idx => appending_indexing n arr.appending_generate idx.appending_generate

theorem ASTExpr.appending_generateList : ∀ es : List ASTExpr, Appending (ASTExpr.generateList es)
  | [] => by
    rw [ASTExpr.generateList]
    infer_instance
  | e :: es => by
    have he := e.appending_generate
    have hes := ASTExpr.appending_generateList es
    rw [ASTExpr.generateList]
    infer_instance

theorem ASTExpr.appending_generateElements : ∀ (es : List ASTExpr) (int64Ptr : Operand) (i : ℕ),
    Appending (ASTExpr.generateElements int64Ptr i es)
  | [], _, _ => by
    rw [ASTExpr.generateElements]
    infer_instance
  | e :: es, int64Ptr, i => by
    have he := e.appending_generate
    have hes := ASTExpr.appending_generateElements es int64Ptr (i + 1)
    rw [ASTExpr.generateElements]
    infer_instance

theorem ASTExpr.appending_generateFields : ∀ (fs : List ASTFieldExpr) (record : Operand),
    Appending (ASTExpr.generateFields record fs)
  | [], _ => by
    rw [ASTExpr.generateFields]
    infer_instance
  | .mk _ _ initializer :: fs, record => by
    have hvalue := initializer.appending_generate
    have hfs := ASTExpr.appending_generateFields fs record
    rw [ASTExpr.generateFields]
    infer_instance

end

instance (e : ASTExpr) : Appending e.generate :=
  e.appending_generate

instance (es : List ASTExpr) : Appending (ASTExpr.generateList es) :=
  ASTExpr.appending_generateList es

instance (int64Ptr : Operand) (i : ℕ) (es : List ASTExpr) :
    Appending (ASTExpr.generateElements int64Ptr i es) :=
  ASTExpr.appending_generateElements es int64Ptr i

instance (record : Operand) (fs : List ASTFieldExpr) :
    Appending (ASTExpr.generateFields record fs) :=
  ASTExpr.appending_generateFields fs record

instance (rangeStart rangeEnd : ASTExpr) (increment : Option ASTExpr) :
    Appending (generateRange rangeStart rangeEnd increment) := by
  unfold generateRange
  cases increment <;> infer_instance

instance (item rangeStart rangeEnd : ASTExpr) (increment : Option ASTExpr) :
    Appending (startRange item rangeStart rangeEnd increment) := by
  unfold startRange
  exact appending_bind inferInstance fun _ ↦ appending_bind inferInstance fun (_, _, _) ↦ inferInstance

instance (item iterator : ASTExpr) : Appending (startIterator item iterator) := by
  unfold startIterator
  infer_instance

mutual

/-- The code of a statement is only appended. The cases are those of the generator. -/
theorem ASTStmt.appending_generate : ∀ stmt : ASTStmt, Appending stmt.generate
  | .assignStmt _ _ _ | .updateStmt _ _ _ | .outputStmt _ _ | .errorStmt _ _ | .blockStmt _ [] => by
    rw [ASTStmt.generate]
    infer_instance
  | .blockStmt _ (s :: stmts) => by
    have hs := s.appending_generate
    have hstmts := ASTStmt.appending_generateList stmts
    rw [ASTStmt.generate]
    infer_instance
  | .whileStmt n condition body => by
    have hbody := body.appending_generate
    rw [generate_whileStmt]
    exact appending_loop inferInstance (fun _ ↦ inferInstance) (fun _ _ ↦ inferInstance)
      fun _ _ ↦ inferInstance
  | .forStmt n item (.range rangeStart rangeEnd increment) body => by
    have hbody := body.appending_generate
    rw [generate_forRange]
    exact appending_loop inferInstance (fun (_, _, _) ↦ inferInstance)
      (fun (_, _, _) _ ↦ inferInstance) fun _ _ ↦ inferInstance
  | .forStmt n item (.iterator iterator) body => by
    have hbody := body.appending_generate
    rw [generate_forIterator]
    exact appending_loop inferInstance (fun (_, _, _, _) ↦ inferInstance)
      (fun (_, _, _, _) _ ↦ inferInstance) fun _ _ ↦ inferInstance
  | .ifStmt n condition thenStmt elseStmt => by
    have hthen := thenStmt.appending_generate
    have helse := ASTStmt.appending_generateElse elseStmt
    rw [generate_ifStmt]
    infer_instance

theorem ASTStmt.appending_generateElse : ∀ stmt : Option ASTStmt,
    Appending (ASTStmt.generateElse stmt)
  | some s => by
    rw [ASTStmt.generateElse]
    exact s.appending_generate
  | none => by
    rw [ASTStmt.generateElse]
    infer_instance

theorem ASTStmt.appending_generateList : ∀ stmts : List ASTStmt,
    Appending (ASTStmt.generateList stmts)
  | [] => by
    rw [ASTStmt.generateList]
    infer_instance
  | s :: stmts => by
    have hs := s.appending_generate
    have hstmts := ASTStmt.appending_generateList stmts
    rw [ASTStmt.generateList]
    infer_instance

end

instance (stmt : ASTStmt) : Appending stmt.generate :=
  stmt.appending_generate

instance (stmt : Option ASTStmt) : Appending (ASTStmt.generateElse stmt) :=
  ASTStmt.appending_generateElse stmt

instance (stmts : List ASTStmt) : Appending (ASTStmt.generateList stmts) :=
  ASTStmt.appending_generateList stmts

/-- The code of a statement goes to the end of the block at the insertion point and to new blocks. All
other code stays as it is, and so do the tables but for new entries. -/
theorem ASTStmt.appends_generate (stmt : ASTStmt) {s t : CodegenState} (h : s.InBlock)
    (hreturns : Run.Returns stmt.generate s () t) : Appends s t :=
  stmt.appending_generate.appends h hreturns

/-- A function with an empty entry block, to which code is added. -/
def emptyEntry : CodegenState :=
  { CodegenState.initial with
    module := ⟨[⟨"f", [], .int, [[]]⟩], [], 0⟩
    nop := some ⟨0, 1, .void⟩ }

theorem appends_whileInput : ∃ t,
    Run.Returns (ASTStmt.whileStmt 0 (.inputExpr 1) (.blockStmt 2 [])).generate emptyEntry () t ∧
      Appends emptyEntry t := by
  have hreturns : Run.Returns (ASTStmt.whileStmt 0 (.inputExpr 1) (.blockStmt 2 [])).generate
    emptyEntry () _ := ⟨rfl, rfl⟩
  exact ⟨_, hreturns, ASTStmt.appends_generate _ Nat.zero_lt_one hreturns⟩

end Sipc
