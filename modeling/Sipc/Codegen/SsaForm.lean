import Sipc.Codegen.Declarations
import Sipc.Library.StructuredCode

/-!
# The form of the emitted code

What `verifyFunction` and `verifyModule` ask of the control flow of the code, at the end of
`ASTFunction::codegen` and `ASTProgram::codegen`: `Llvm.Function.IsSsa`. An operand is used with the
kind that its instruction has.

`Llvm.Shows` relates a state of the generator to a draft of the code of the current function, and
`Llvm.Emits` says of a method that it goes on with the draft, given operands that are available, and
that its results are available afterwards. The rules follow the primitives of the builder.
-/

set_option autoImplicit false
set_option relaxedAutoImplicit false

namespace Sipc.Llvm

open IR (BinaryInstr Predicate Label)
open Library

/-- What an instruction is for the form of the code. -/
def Instruction.role : Instruction → Role Operand
  | .alloca _ | .inputPtr _ => .plain []
  | .load v | .loadPointer v | .zext v | .intToPtr v | .ptrToInt v | .fieldPtr v _
  | .functionTablePtr v => .plain [v]
  | .store v w | .binary _ v w | .icmp _ v w | .elementPtr v w => .plain [v, w]
  | .call (.function _) args => .plain args
  | .call (.indirect pointer) args => .plain (pointer :: args)
  | .phi incoming => .phi incoming
  | .br target => .terminator [] [target]
  | .condBr cond thenTarget elseTarget => .terminator [cond] [thenTarget, elseTarget]
  | .ret v => .terminator [v] []
  | .unreachable => .terminator [] []

/-- The instructions with their numbers, which compute operands. -/
def instructionSet : InstructionSet (ℕ × Instruction) Operand where
  role x := x.2.role
  result x := .result x.1 x.2.kind

/-- The operands that are there from the start, in a function with that many arguments. -/
def Operand.IsGiven (args : ℕ) : Operand → Prop
  | .const _ | .null => True
  | .arg i => i < args
  | .result _ _ => False

def givenOperands (args : ℕ) : Set Operand :=
  {v | v.IsGiven args}

@[simp] theorem const_mem_given (args : ℕ) (w : Word) : .const w ∈ givenOperands args :=
  trivial

/-- The code of the function is in static single assignment form. -/
def Function.IsSsa (f : Function) : Prop :=
  instructionSet.IsSsa (givenOperands f.args.length) f.blocks

/-! ### Drafts of functions -/

/-- The code of a function while it is generated. -/
abbrev CodeDraft := Draft (ℕ × Instruction) Operand

/-- The draft is sound, in a function with that many arguments. -/
abbrev CodeDraft.Sound (d : CodeDraft) (args : ℕ) : Prop :=
  Draft.Sound instructionSet (givenOperands args) d

abbrev CodeDraft.out (d : CodeDraft) (args : ℕ) : Set Operand :=
  Draft.out instructionSet (givenOperands args) d

abbrev CodeDraft.Extends (d d' : CodeDraft) (args : ℕ) : Prop :=
  Draft.Extends instructionSet (givenOperands args) d d'

/-- The code of the function is written to its end. -/
def Function.Completed (f : Function) : Prop :=
  ∃ d : CodeDraft, d.Sound f.args.length ∧ d.isOpen = false ∧ (∀ l, d.status l = .sealed) ∧
    d.blocks = f.blocks

theorem Function.Completed.isSsa {f : Function} (h : f.Completed) : f.IsSsa := by
  obtain ⟨d, hsound, hopen, hsealed, hblocks⟩ := h
  unfold IsSsa
  rw [← hblocks]
  exact hsound.isSsa hopen hsealed

/-- A function that is only declared. -/
theorem Function.completed_of_nil {f : Function} (h : f.blocks = []) : f.Completed := by
  have hnil (l : ℕ) : blockAt ([] : List Block) l = [] := blockAt_eq_nil (Nat.zero_le l)
  have hjumps (a l : ℕ) : instructionSet.jumps [] a l = 0 :=
    InstructionSet.jumps_eq_zero (Nat.zero_le a) l
  refine ⟨⟨[], 0, false, fun _ ↦ .sealed, fun _ ↦ ∅, ∅⟩, ?_, rfl, fun _ ↦ rfl, h.symm⟩
  constructor
  case current_lt | opened | kept => exact fun hopen ↦ Bool.noConfusion hopen
  case unsealed => exact fun l hl ↦ absurd rfl hl
  case awaited => exact fun l hl ↦ BlockStatus.noConfusion hl
  case closed => exact fun l hl ↦ absurd hl (Nat.not_lt_zero l)
  case targets =>
    intro a l hpos
    rw [hjumps] at hpos
    exact absurd hpos (lt_irrefl 0)
  case phisFirst =>
    intro l
    rw [hnil]
    exact List.Pairwise.nil
  case entry => exact ⟨rfl, fun x hx ↦ by cases hx⟩
  case incoming =>
    intro l x hx
    rw [hnil] at hx
    cases hx
  case once => exact List.nodup_nil
  case flow =>
    intro a l hpos
    rw [hjumps] at hpos
    exact absurd hpos (lt_irrefl 0)
  case defined =>
    intro l before x after hcode
    rw [hnil] at hcode
    exact absurd hcode.symm (List.append_ne_nil_of_right_ne_nil _ (List.cons_ne_nil _ _))
  case phiDefined =>
    intro l x hx
    rw [hnil] at hx
    cases hx

/-- The draft is the code of the function at the insertion point, which has `args` arguments. All
other functions are complete. -/
structure Shows (args : ℕ) (d : CodeDraft) (s : CodegenState) : Prop where
  function : ∃ f, s.module.functions[s.insertFunction]? = some f ∧ f.blocks = d.blocks ∧
    f.args.length = args
  current : s.insertBlock = d.current
  ids : ∀ (k : ℕ) (f : Function), s.module.functions[k]? = some f → ∀ x ∈ f.blocks.flatten, x.1 < s.nextId
  named : ∀ name a, s.namedValues name = some a → a.operand ∈ d.kept
  others : ∀ (k : ℕ) (f : Function), k ≠ s.insertFunction → s.module.functions[k]? = some f → f.Completed

section Shows

variable {args : ℕ} {d d' : CodeDraft} {s s' : CodegenState}

/-- The next number is new. -/
theorem Shows.fresh (hs : Shows args d s) (i : Instruction) :
    instructionSet.result (s.nextId, i) ∉ d.blocks.flatten.map instructionSet.result := by
  obtain ⟨f, hf, hblocks, -⟩ := hs.function
  intro hmem
  obtain ⟨x, hx, heq⟩ := List.mem_map.1 hmem
  rw [← hblocks] at hx
  exact absurd (Operand.result.inj heq).1 (Nat.ne_of_lt (hs.ids _ f hf x hx))

/-- The draft may differ in what is not code. -/
theorem Shows.congr (hs : Shows args d s) (hblocks : d'.blocks = d.blocks)
    (hcurrent : d'.current = d.current) (hkept : d'.kept = d.kept) : Shows args d' s where
  function := by
    rw [hblocks]
    exact hs.function
  current := by
    rw [hcurrent]
    exact hs.current
  ids := hs.ids
  named := by
    rw [hkept]
    exact hs.named
  others := hs.others

/-- The blocks of the current function are changed. -/
theorem Shows.change (hs : Shows args d s) (f : List Block → List Block)
    (hmodule : s'.module.functions =
      s.module.functions.modify s.insertFunction fun g ↦ { g with blocks := f g.blocks })
    (hblocks : d'.blocks = f d.blocks) (hfunction : s'.insertFunction = s.insertFunction)
    (hcurrent : s'.insertBlock = d'.current) (hnext : s.nextId ≤ s'.nextId)
    (hids : ∀ x ∈ d'.blocks.flatten, x ∈ d.blocks.flatten ∨ x.1 < s'.nextId)
    (hnamed : ∀ name a, s'.namedValues name = some a → a.operand ∈ d'.kept) :
    Shows args d' s' := by
  obtain ⟨g, hg, hgb, hargs⟩ := hs.function
  have hself : s'.module.functions[s.insertFunction]? = some { g with blocks := d'.blocks } := by
    rw [hmodule, List.getElem?_modify, hg, hblocks, ← hgb]
    simp
  have hother {k : ℕ} (hk : k ≠ s.insertFunction) :
      s'.module.functions[k]? = s.module.functions[k]? := by
    rw [hmodule, List.getElem?_modify]
    simp [hk.symm]
  refine ⟨⟨{ g with blocks := d'.blocks }, by rwa [hfunction], rfl, hargs⟩, hcurrent, ?_, hnamed, ?_⟩
  · intro k h hk x hx
    by_cases hkf : k = s.insertFunction
    · subst hkf
      obtain rfl := Option.some.inj (hself.symm.trans hk)
      rcases hids x hx with hx | hx
      · rw [← hgb] at hx
        exact (hs.ids _ g hg x hx).trans_le hnext
      · exact hx
    · rw [hother hkf] at hk
      exact (hs.ids k h hk x hx).trans_le hnext
  · intro k h hk hget
    rw [hfunction] at hk
    rw [hother hk] at hget
    exact hs.others k h hk hget

/-- An instruction is appended. -/
theorem Shows.insert (hs : Shows args d s) (hlt : d.current < d.blocks.length) (i : Instruction) :
    Shows args (d.write instructionSet (s.nextId, i)) (s.insert i) := by
  refine hs.change (fun bs ↦ bs.modify d.current fun b ↦ b ++ [(s.nextId, i)]) ?_ rfl rfl hs.current
    (Nat.le_succ _) ?_ hs.named
  · rw [← hs.current]
    rfl
  · intro x hx
    have hperm := perm_flatten_modify (x := (s.nextId, i))
      (fun b ↦ List.perm_append_singleton (s.nextId, i) b) hlt
    rcases List.mem_cons.1 (hperm.mem_iff.1 hx) with rfl | hx
    · exact .inr (Nat.lt_succ_self _)
    · exact .inl hx

/-- A block is made. -/
theorem Shows.addBlock (hs : Shows args d s) :
    Shows args d.addBlock { s with module := s.module.addBlock s.insertFunction } := by
  refine hs.change (fun bs ↦ bs ++ [[]]) rfl rfl rfl hs.current le_rfl (fun x hx ↦ .inl ?_) hs.named
  simpa [Draft.addBlock] using hx

/-- The number of a new block. -/
theorem Shows.blockCount (hs : Shows args d s) :
    (s.module.functions[s.insertFunction]?.map fun f ↦ f.blocks.length).getD 0 =
      d.blocks.length := by
  obtain ⟨f, hf, hblocks, -⟩ := hs.function
  rw [hf, ← hblocks]
  rfl

/-- The insertion point moves. -/
theorem Shows.start (hs : Shows args d s) (l : Label) (st : BlockStatus) :
    Shows args (d.start l st) { s with insertBlock := l } :=
  ⟨hs.function, rfl, hs.ids, hs.named, hs.others⟩

/-- A function is declared. -/
theorem Shows.create (hs : Shows args d s) (name : String) (params : List String) (r : Kind) :
    Shows args d (s.create name params r) := by
  obtain ⟨f, hf, hblocks, hargs⟩ := hs.function
  have hlt := (List.getElem?_eq_some_iff.1 hf).1
  have hget {k : ℕ} {g : Function} (hk : (s.create name params r).module.functions[k]? = some g) :
      s.module.functions[k]? = some g ∨ g.blocks = [] := by
    change (s.module.functions ++ [_])[k]? = some g at hk
    by_cases hlen : k < s.module.functions.length
    · rw [List.getElem?_append_left hlen] at hk
      exact .inl hk
    · rw [List.getElem?_append_right (Nat.le_of_not_lt hlen)] at hk
      refine .inr ?_
      rw [List.mem_singleton.1 (List.mem_of_getElem? hk)]
  refine ⟨⟨f, ?_, hblocks, hargs⟩, hs.current, ?_, hs.named, ?_⟩
  · change (s.module.functions ++ [_])[s.insertFunction]? = some f
    rw [List.getElem?_append_left hlt]
    exact hf
  · intro k g hk x hx
    rcases hget hk with hold | hnil
    · exact hs.ids k g hold x hx
    · rw [hnil] at hx
      cases hx
  · intro k g hk hgetk
    rcases hget hgetk with hold | hnil
    · exact hs.others k g hk hold
    · exact Function.completed_of_nil hnil

end Shows

/-! ### Methods -/

/-- Wherever the operands of `V` are available, the method goes on with the code, and the operands that
`Q` names for its result are available after it. -/
def Emits {α : Type} (args : ℕ) (V : Set Operand) (m : Generate α) (Q : α → Set Operand) : Prop :=
  ∀ (d : CodeDraft) (s : CodegenState) (a : α) (s' : CodegenState), Shows args d s →
    d.Sound args → d.isOpen = true → V ⊆ d.out args → Run.Returns m s a s' →
    ∃ d' : CodeDraft, Shows args d' s' ∧ d'.Sound args ∧ d.Extends d' args ∧ Q a ⊆ d'.out args

section Emits

variable {α β : Type} {args : ℕ} {V W : Set Operand} {m : Generate α} {f : α → Generate β}
  {Q : α → Set Operand} {R : β → Set Operand} {v l r : Operand}

theorem Emits.bind (hm : Emits args V m Q) (hf : ∀ a, Emits args (V ∪ Q a) (f a) R) :
    Emits args V (m >>= f) R := by
  intro d s b s' hs hsound hopen hV hreturns
  obtain ⟨a, s₁, h₁, h₂⟩ := Run.returns_bind.1 hreturns
  obtain ⟨d₁, hs₁, hsound₁, hext₁, hQ⟩ := hm d s a s₁ hs hsound hopen hV h₁
  obtain ⟨d₂, hs₂, hsound₂, hext₂, hR⟩ := hf a d₁ s₁ b s' hs₁ hsound₁ hext₁.isOpen
    (Set.union_subset (hV.trans hext₁.out) hQ) h₂
  exact ⟨d₂, hs₂, hsound₂, hext₁.trans hext₂, hR⟩

/-- More may be available before, and less is needed after. -/
theorem Emits.mono (h : Emits args V m Q) (hV : V ⊆ W ∪ givenOperands args) {Q' : α → Set Operand}
    (hQ : ∀ a, Q' a ⊆ W ∪ givenOperands args ∪ Q a) : Emits args W m Q' := by
  intro d s a s' hs hsound hopen hW hreturns
  have hout : W ∪ givenOperands args ⊆ d.out args := Set.union_subset hW Draft.subset_out
  obtain ⟨d', hs', hsound', hext, hsub⟩ := h d s a s' hs hsound hopen (hV.trans hout) hreturns
  exact ⟨d', hs', hsound', hext, (hQ a).trans (Set.union_subset (hout.trans hext.out) hsub)⟩

theorem Emits.weaken (h : Emits args V m Q) (hV : V ⊆ W) : Emits args W m Q :=
  h.mono (hV.trans Set.subset_union_left) fun _ ↦ Set.subset_union_right

theorem emits_pure {a : α} (h : Q a ⊆ V ∪ givenOperands args) : Emits args V (pure a) Q := by
  intro d s b s' hs hsound hopen hV hreturns
  obtain ⟨rfl, rfl⟩ := Run.returns_pure.1 hreturns
  exact ⟨d, hs, hsound, .refl hopen, h.trans (Set.union_subset hV Draft.subset_out)⟩

theorem emits_fail {e : InternalError} : Emits args V (Run.fail e : Generate α) Q :=
  fun _ _ _ _ _ _ _ _ hreturns ↦ absurd hreturns Run.not_returns_fail

theorem emits_orFail {e : InternalError} {o : Option α} :
    Emits args V (Run.orFail e o) fun _ ↦ ∅ := by
  cases o with
  | none => exact emits_fail
  | some a => exact emits_pure (Set.empty_subset _)

theorem emits_event {ev : GenEvent} : Emits args V (Run.emit ev) fun _ ↦ ∅ := by
  intro d s u s' hs hsound hopen _ hreturns
  obtain rfl := Run.returns_emit.1 hreturns
  exact ⟨d, hs, hsound, .refl hopen, Set.empty_subset _⟩

/-- A change of the tables and flags. -/
theorem emits_access {g : CodegenState → α × CodegenState}
    (h : ∀ s, (g s).2.module = s.module ∧ (g s).2.insertFunction = s.insertFunction ∧
      (g s).2.insertBlock = s.insertBlock ∧ (g s).2.nextId = s.nextId ∧
      (g s).2.namedValues = s.namedValues) :
    Emits args V (Run.access g) fun _ ↦ ∅ := by
  intro d s a s' hs hsound hopen _ hreturns
  have hs' : s' = (g s).2 := by rw [Run.returns_access.1 hreturns]
  obtain ⟨hmodule, hfunction, hblock, hnext, hnamed⟩ := h s
  refine ⟨d, ⟨?_, ?_, ?_, ?_, ?_⟩, hsound, .refl hopen, Set.empty_subset _⟩
  · rw [hs', hmodule, hfunction]
    exact hs.function
  · rw [hs', hblock]
    exact hs.current
  · rw [hs', hmodule, hnext]
    exact hs.ids
  · rw [hs', hnamed]
    exact hs.named
  · rw [hs', hmodule, hfunction]
    exact hs.others

theorem emits_get : Emits args V get fun _ ↦ ∅ :=
  emits_access fun _ ↦ ⟨rfl, rfl, rfl, rfl, rfl⟩

/-! ### Instructions -/

theorem returns_emit_iff {i : Instruction} {s s' : CodegenState} :
    Run.Returns (emit i) s v s' ↔ .result s.nextId i.kind = v ∧ s.insert i = s' := by
  unfold emit
  rw [Run.returns_access, Prod.mk.injEq]

theorem returns_emitUnit_iff {i : Instruction} {s s' : CodegenState} {u : Unit} :
    Run.Returns (emitUnit i) s u s' ↔ s.insert i = s' := by
  unfold emitUnit modify
  rw [Run.returns_access, Prod.mk.injEq, eq_self, true_and]

/-- An instruction that fits and does not end the block. -/
theorem Shows.write {d : CodeDraft} {s : CodegenState} (hs : Shows args d s) (hsound : d.Sound args)
    (hopen : d.isOpen = true) {i : Instruction}
    (hfits : d.Fits instructionSet (givenOperands args) (s.nextId, i))
    (hterm : i.role.isTerminator = false) :
    let d' : CodeDraft := d.write instructionSet (s.nextId, i)
    Shows args d' (s.insert i) ∧ d'.Sound args ∧ d.Extends d' args ∧
      .result s.nextId i.kind ∈ d'.out args := by
  have hlt := (hsound.current_lt hopen).1
  refine ⟨hs.insert hlt i, hsound.write hopen hfits, hsound.extends_write hopen hterm, ?_⟩
  change _ ∈ Draft.out instructionSet (givenOperands args) _
  rw [Draft.out_write hlt]
  exact Set.mem_insert _ _

/-- An instruction that is neither a phi nor a terminator. -/
theorem Shows.plain {d : CodeDraft} {s : CodegenState} (hs : Shows args d s) (hsound : d.Sound args)
    (hopen : d.isOpen = true) (hV : V ⊆ d.out args) {i : Instruction} {vs : List Operand}
    (hrole : i.role = .plain vs) (hvs : ∀ v ∈ vs, v ∈ V ∪ givenOperands args) :
    let d' : CodeDraft := d.write instructionSet (s.nextId, i)
    Shows args d' (s.insert i) ∧ d'.Sound args ∧ d.Extends d' args ∧
      .result s.nextId i.kind ∈ d'.out args := by
  have hterm : i.role.isTerminator = false := by
    rw [hrole]
    rfl
  refine hs.write hsound hopen ⟨?_, hs.fresh i, ?_, ?_⟩ hterm
  · change ∀ v ∈ i.role.operands, _
    rw [hrole]
    exact fun v hv ↦ Set.union_subset hV Draft.subset_out (hvs v hv)
  · change ∀ t ∈ i.role.targets, _
    rw [hrole]
    exact List.forall_mem_nil _
  · change i.role.isPhi = true → _
    rw [hrole]
    exact fun hphi ↦ Bool.noConfusion hphi

theorem emits_emit {i : Instruction} {vs : List Operand} (hrole : i.role = .plain vs)
    (hvs : ∀ v ∈ vs, v ∈ V ∪ givenOperands args) : Emits args V (emit i) fun v ↦ {v} := by
  intro d s v s' hs hsound hopen hV hreturns
  obtain ⟨rfl, rfl⟩ := returns_emit_iff.1 hreturns
  obtain ⟨hs', hsound', hext, hmem⟩ := hs.plain hsound hopen hV hrole hvs
  exact ⟨_, hs', hsound', hext, Set.singleton_subset_iff.2 hmem⟩

theorem emits_emitUnit {i : Instruction} {vs : List Operand} (hrole : i.role = .plain vs)
    (hvs : ∀ v ∈ vs, v ∈ V ∪ givenOperands args) : Emits args V (emitUnit i) fun _ ↦ ∅ := by
  intro d s u s' hs hsound hopen hV hreturns
  obtain rfl := returns_emitUnit_iff.1 hreturns
  obtain ⟨hs', hsound', hext, -⟩ := hs.plain hsound hopen hV hrole hvs
  exact ⟨_, hs', hsound', hext, Set.empty_subset _⟩

/-! ### Helpers of the generator -/

theorem emits_modify {g : CodegenState → CodegenState}
    (h : ∀ s, (g s).module = s.module ∧ (g s).insertFunction = s.insertFunction ∧
      (g s).insertBlock = s.insertBlock ∧ (g s).nextId = s.nextId ∧
      (g s).namedValues = s.namedValues) : Emits args V (modify g) fun _ ↦ ∅ :=
  emits_access h

theorem emits_setLValueGen (b : Bool) :
    Emits args V (modify fun s ↦ { s with lValueGen := b }) fun _ ↦ ∅ :=
  emits_modify fun _ ↦ ⟨rfl, rfl, rfl, rfl, rfl⟩

theorem emits_setAllocFlag (b : Bool) :
    Emits args V (modify fun s ↦ { s with allocFlag := b }) fun _ ↦ ∅ :=
  emits_modify fun _ ↦ ⟨rfl, rfl, rfl, rfl, rfl⟩

theorem emits_takeLValue : Emits args V takeLValue fun _ ↦ ∅ :=
  emits_get.bind fun _ ↦ (emits_setLValueGen false).bind fun _ ↦ emits_pure (Set.empty_subset _)

theorem emits_fieldSlot (field : String) : Emits args V (fieldSlot field) fun _ ↦ ∅ := by
  refine emits_access fun s ↦ ?_
  cases s.fieldIndex field <;> exact ⟨rfl, rfl, rfl, rfl, rfl⟩

theorem emits_intrinsic (i : Intrinsic) : Emits args V (intrinsic i) fun _ ↦ ∅ := by
  refine emits_get.bind fun s ↦ ?_
  cases s.intrinsics i with
  | some f => exact emits_pure (Set.empty_subset _)
  | none =>
    refine Emits.bind (Q := fun _ ↦ ∅) ?_ fun f ↦ ?_
    · intro d s f s' hs hsound hopen _ hreturns
      obtain rfl := (returns_createFunction.unique hreturns).2
      exact ⟨d, hs.create _ _ _, hsound, .refl hopen, Set.empty_subset _⟩
    · refine (emits_modify ?_).bind fun _ ↦ emits_pure (Set.empty_subset _)
      exact fun _ ↦ ⟨rfl, rfl, rfl, rfl, rfl⟩

theorem emits_callNop : Emits args V callNop fun _ ↦ ∅ :=
  emits_get.bind fun _ ↦ emits_orFail.bind fun _ ↦ emits_emitUnit rfl (List.forall_mem_nil _)

theorem emits_callCalloc (hl : l ∈ V ∪ givenOperands args) (hr : r ∈ V ∪ givenOperands args) :
    Emits args V (callCalloc l r) fun v ↦ {v} := by
  refine emits_get.bind fun _ ↦ emits_orFail.bind fun _ ↦ emits_emit rfl ?_
  rw [Set.union_empty, Set.union_empty]
  exact List.forall_mem_cons.2 ⟨hl, List.forall_mem_singleton.2 hr⟩

theorem emits_address {code : Generate Operand} (h : Emits args V code fun v ↦ {v}) (e : ASTExpr) :
    Emits args V (address e code) fun v ↦ {v} := by
  refine (emits_setLValueGen true).bind fun _ ↦ (h.weaken Set.subset_union_left).bind fun v ↦ ?_
  refine (emits_setLValueGen false).bind fun _ ↦ emits_event.bind fun _ ↦ ?_
  exact emits_pure (Set.singleton_subset_iff.2 (by simp))

end Emits

end Sipc.Llvm
