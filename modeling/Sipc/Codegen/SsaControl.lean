import Sipc.Codegen.ControlFlow
import Sipc.Codegen.SsaForm

/-!
# The form of loops, choices and checks

One rule for each of the three shapes in which the code generator makes blocks.
-/

set_option autoImplicit false
set_option relaxedAutoImplicit false

namespace Sipc.Llvm

open IR (Label)
open Library

section Steps

variable {α : Type} {args : ℕ} {d : CodeDraft} {s s' : CodegenState}

/-- A terminator is appended, and the insertion point moves. -/
theorem Shows.branch (hs : Shows args d s) (hlt : d.current < d.blocks.length) (i : Instruction)
    (ls : List Label) (l : Label) (st : BlockStatus) :
    Shows args (d.branch instructionSet (givenOperands args) ls (s.nextId, i) l st)
      { s.insert i with insertBlock := l } := by
  have hoffer : Shows args (d.offer instructionSet (givenOperands args) ls) s :=
    hs.congr rfl rfl rfl
  exact (hoffer.insert hlt i).start l st

theorem Shows.settle (hs : Shows args d s) (l : Label) : Shows args (d.settle l) s :=
  hs.congr rfl rfl rfl

/-- Three blocks are made one after the other. -/
theorem Shows.prepare (hs : Shows args d s) (hsound : d.Sound args) (hopen : d.isOpen = true)
    {f : Label → Label → Label → Generate α} {a : α}
    (h : Run.Returns (do
      let first ← createBlock
      let second ← createBlock
      let third ← createBlock
      f first second third) s a s') :
    ∃ (d₁ : CodeDraft) (s₁ : CodegenState), Shows args d₁ s₁ ∧ d₁.Sound args ∧
      Draft.Prepared instructionSet (givenOperands args) d d₁ ∧
      Run.Returns (f d.blocks.length (d.blocks.length + 1) (d.blocks.length + 2)) s₁ a s' := by
  obtain ⟨hsound', hp⟩ := Draft.prepared_addBlock hsound hopen
  have hs₁ := hs.addBlock
  have hs₂ := hs₁.addBlock
  refine ⟨_, _, hs₂.addBlock, hsound', hp, ?_⟩
  rw [returns_createBlock.bind_iff, returns_createBlock.bind_iff, returns_createBlock.bind_iff,
    hs.blockCount, hs₁.blockCount, hs₂.blockCount, Draft.length_addBlock, Draft.length_addBlock,
    Draft.length_addBlock] at h
  exact h

end Steps

variable {α β γ : Type} {args : ℕ} {V : Set Operand}

/-! ### Loops -/

theorem emits_loop {pre : Generate α} {head : α → Generate β} {cond : β → Operand}
    {body : α → β → Generate Unit} {rest : α → β → Generate γ} {Q : α → Set Operand}
    {R : β → Set Operand} {T : γ → Set Operand} (hpre : Emits args V pre Q)
    (hhead : ∀ a, Emits args (V ∪ Q a) (head a) R)
    (hcond : ∀ a b, cond b ∈ V ∪ Q a ∪ R b ∪ givenOperands args)
    (hbody : ∀ a b, Emits args (V ∪ Q a ∪ R b) (body a b) fun _ ↦ ∅)
    (hrest : ∀ a b, Emits args (V ∪ Q a ∪ R b) (rest a b) T) :
    Emits args V (loop pre head cond body rest) T := by
  intro d s c s' hs hsound hopen hV hreturns
  obtain ⟨d₁, s₁, hs₁, hsound₁, hp₁, hreturns⟩ := hs.prepare hsound hopen hreturns
  obtain ⟨a, s₂, hreturns₂, hreturns⟩ := Run.returns_bind.1 hreturns
  obtain ⟨d₂, hs₂, hsound₂, hext₂, hQ⟩ :=
    hpre d₁ s₁ a s₂ hs₁ hsound₁ hp₁.isOpen (hV.trans hp₁.out) hreturns₂
  have hp₂ := hp₁.extends hext₂
  have hV₂ : V ∪ Q a ⊆ d₂.out args := Set.union_subset (hV.trans hp₂.out) hQ
  -- the header
  obtain ⟨hsound₃, hp₃, hout₃⟩ :=
    hp₂.enterHeader (x := (s₂.nextId, .br d.blocks.length)) hsound₂ rfl (hs₂.fresh _)
  have hs₃ := hs₂.branch (hsound₂.current_lt hp₂.isOpen).1 (.br d.blocks.length) [d.blocks.length]
    d.blocks.length .joined
  rw [returns_emitUnit.bind_iff, returns_setInsertPoint.bind_iff] at hreturns
  obtain ⟨b, s₄, hreturns₄, hreturns⟩ := Run.returns_bind.1 hreturns
  obtain ⟨d₄, hs₄, hsound₄, hext₄, hR⟩ :=
    hhead a _ _ b s₄ hs₃ hsound₃ hp₃.isOpen (hV₂.trans hout₃.ge) hreturns₄
  have hp₄ := hp₃.extends hext₄
  have hV₄ : V ∪ Q a ∪ R b ⊆ d₄.out args :=
    Set.union_subset ((hV₂.trans hout₃.ge).trans hext₄.out) hR
  -- the body
  obtain ⟨hsound₅, hp₅, hout₅⟩ := hp₄.enterBody
    (x := (s₄.nextId, .condBr (cond b) (d.blocks.length + 1) (d.blocks.length + 2))) hsound₄ rfl
    (List.forall_mem_singleton.2 (Set.union_subset hV₄ Draft.subset_out (hcond a b))) (hs₄.fresh _)
  have hs₅ := hs₄.branch (hsound₄.current_lt hp₄.isOpen).1
    (.condBr (cond b) (d.blocks.length + 1) (d.blocks.length + 2))
    [d.blocks.length + 1, d.blocks.length + 2] (d.blocks.length + 1) .sealed
  rw [returns_emitUnit.bind_iff, returns_setInsertPoint.bind_iff] at hreturns
  obtain ⟨_, s₆, hreturns₆, hreturns⟩ := Run.returns_bind.1 hreturns
  obtain ⟨d₆, hs₆, hsound₆, hext₆, -⟩ :=
    hbody a b _ _ () s₆ hs₅ hsound₅ hp₅.isOpen (hV₄.trans hout₅.ge) hreturns₆
  -- the exit
  obtain ⟨hsound₇, hext₇, hrest₇⟩ := (hp₅.extends hext₆).leave
    (x := (s₆.nextId, .br d.blocks.length)) hsound hsound₆ rfl (hs₆.fresh _)
  have hs₇ := (hs₆.branch (hsound₆.current_lt hext₆.isOpen).1 (.br d.blocks.length) []
    (d.blocks.length + 2) .sealed).settle d.blocks.length
  rw [returns_emitUnit.bind_iff, returns_setInsertPoint.bind_iff] at hreturns
  obtain ⟨d₈, hs₈, hsound₈, hext₈, hT⟩ :=
    hrest a b _ _ c s' hs₇ hsound₇ hext₇.isOpen (hV₄.trans hrest₇) hreturns
  exact ⟨d₈, hs₈, hsound₈, hext₇.trans hext₈, hT⟩

/-! ### Choices -/

/-- What comes after the branches may use the values of each at its end. -/
theorem emits_choice {condVal : Operand} {thenCode : Generate α} {elseCode : Generate β}
    {rest : α → Label → β → Label → Generate γ} {Q : α → Set Operand} {R : β → Set Operand}
    {T : γ → Set Operand} (hcond : condVal ∈ V ∪ givenOperands args)
    (hthen : Emits args V thenCode Q) (helse : Emits args V elseCode R)
    (hrest : ∀ (d₀ d : CodeDraft) (a : α) (last : Label) (b : β) (last' : Label) (c : γ)
      (s s' : CodegenState), d₀.Sound args → Shows args d s → d.Sound args →
      Draft.Meets instructionSet (givenOperands args) d₀ d last (V ∪ givenOperands args ∪ Q a) last'
        (V ∪ givenOperands args ∪ R b) → V ⊆ d.out args → Run.Returns (rest a last b last') s c s' →
      ∃ d' : CodeDraft, Shows args d' s' ∧ d'.Sound args ∧ d.Extends d' args ∧ T c ⊆ d'.out args) :
    Emits args V (choice condVal thenCode elseCode rest) T := by
  intro d s c s' hs hsound hopen hV hreturns
  obtain ⟨d₁, s₁, hs₁, hsound₁, hp₁, hreturns⟩ := hs.prepare hsound hopen hreturns
  unfold branchOn at hreturns
  rw [bind_assoc] at hreturns
  obtain ⟨condV, s₂, hreturns₂, hreturns⟩ := Run.returns_bind.1 hreturns
  obtain ⟨d₂, hs₂, hsound₂, hext₂, hcondV⟩ := emits_emit (i := .icmp .ne condVal (.const 0)) rfl
    (List.forall_mem_cons.2 ⟨hcond, List.forall_mem_singleton.2 (.inr (const_mem_given _ _))⟩)
    d₁ s₁ condV s₂ hs₁ hsound₁ hp₁.isOpen (hV.trans hp₁.out) hreturns₂
  have hp₂ := hp₁.extends hext₂
  have hV₂ : V ⊆ d₂.out args := hV.trans hp₂.out
  -- the first branch
  obtain ⟨hsound₃, hp₃, hout₃⟩ := hp₂.enterThen
    (x := (s₂.nextId, .condBr condV d.blocks.length (d.blocks.length + 1))) hsound₂ rfl
    (List.forall_mem_singleton.2 (hcondV rfl)) (hs₂.fresh _)
  have hs₃ := hs₂.branch (hsound₂.current_lt hp₂.isOpen).1
    (.condBr condV d.blocks.length (d.blocks.length + 1))
    [d.blocks.length, d.blocks.length + 1, d.blocks.length + 2] d.blocks.length .sealed
  rw [returns_emitUnit.bind_iff, returns_setInsertPoint.bind_iff] at hreturns
  obtain ⟨a, s₄, hreturns₄, hreturns⟩ := Run.returns_bind.1 hreturns
  obtain ⟨d₄, hs₄, hsound₄, hext₄, hQ⟩ :=
    hthen _ _ a s₄ hs₃ hsound₃ hp₃.isOpen (hV₂.trans hout₃.ge) hreturns₄
  have hp₄ := hp₃.extends hext₄
  have hvals₄ : V ∪ givenOperands args ∪ Q a ⊆ d₄.out args :=
    Set.union_subset (Set.union_subset ((hV₂.trans hout₃.ge).trans hext₄.out) Draft.subset_out) hQ
  -- the second branch
  obtain ⟨hsound₅, hp₅⟩ := hp₄.enterElse (x := (s₄.nextId, .br (d.blocks.length + 2))) hsound₄ rfl
    (hs₄.fresh _)
  have hs₅ := hs₄.branch (hsound₄.current_lt hp₄.isOpen).1 (.br (d.blocks.length + 2)) []
    (d.blocks.length + 1) .sealed
  rw [returns_emitUnit.bind_iff, returns_getInsertBlock.bind_iff,
    returns_setInsertPoint.bind_iff] at hreturns
  obtain ⟨b, s₆, hreturns₆, hreturns⟩ := Run.returns_bind.1 hreturns
  obtain ⟨d₆, hs₆, hsound₆, hext₆, hR⟩ :=
    helse _ _ b s₆ hs₅ hsound₅ hp₅.isOpen (hV₂.trans hp₅.rest_subset) hreturns₆
  have hp₆ := hp₅.extends hext₆
  have hvals₆ : V ∪ givenOperands args ∪ R b ⊆ d₆.out args :=
    Set.union_subset (Set.union_subset (hV₂.trans hp₆.rest_subset) Draft.subset_out) hR
  -- where they meet
  obtain ⟨hsound₇, hm, hrest₇⟩ := hp₆.meet (x := (s₆.nextId, .br (d.blocks.length + 2))) hsound
    hsound₆ rfl (hs₆.fresh _)
  have hs₇ := hs₆.branch (hsound₆.current_lt hp₆.isOpen).1 (.br (d.blocks.length + 2)) []
    (d.blocks.length + 2) .sealed
  rw [returns_emitUnit.bind_iff, returns_getInsertBlock.bind_iff,
    returns_setInsertPoint.bind_iff] at hreturns
  have hlast : (s₄.insert (.br (d.blocks.length + 2))).insertBlock = d₄.current := hs₄.current
  have hlast' : (s₆.insert (.br (d.blocks.length + 2))).insertBlock = d₆.current := hs₆.current
  rw [hlast, hlast'] at hreturns
  obtain ⟨d₈, hs₈, hsound₈, hext₈, hT⟩ := hrest d _ a d₄.current b d₆.current c _ s' hsound hs₇
    hsound₇ (hm.mono hvals₄ hvals₆) (hV₂.trans hrest₇) hreturns
  exact ⟨d₈, hs₈, hsound₈, hm.toExtends.trans hext₈, hT⟩

/-! ### Checks -/

/-- What comes after the check may use the values of the branch that went on, which is one block. -/
theorem emits_check {isFailure : Operand} {failure : Generate Unit} {success : Generate α}
    {rest : α → Label → Generate γ} {Q : α → Set Operand} {T : γ → Set Operand}
    (hcond : isFailure ∈ V ∪ givenOperands args) (hfailure : Emits args V failure fun _ ↦ ∅)
    (hsuccess : Emits args V success Q)
    (hstays : ∀ s a s', Run.Returns success s a s' → s'.insertBlock = s.insertBlock)
    (hrest : ∀ (d₀ d : CodeDraft) (a : α) (last : Label) (c : γ) (s s' : CodegenState),
      d₀.Sound args → Shows args d s → d.Sound args →
      Draft.Continues instructionSet (givenOperands args) d₀ d last (V ∪ Q a) →
      V ∪ Q a ⊆ d.out args → Run.Returns (rest a last) s c s' →
      ∃ d' : CodeDraft, Shows args d' s' ∧ d'.Sound args ∧ d.Extends d' args ∧ T c ⊆ d'.out args) :
    Emits args V (check isFailure failure success rest) T := by
  intro d s c s' hs hsound hopen hV hreturns
  obtain ⟨d₁, s₁, hs₁, hsound₁, hp₁, hreturns⟩ := hs.prepare hsound hopen hreturns
  have hV₁ := hV.trans hp₁.out
  -- the branch that fails
  obtain ⟨hsound₂, hp₂, hout₂⟩ := hp₁.enterFailure
    (x := (s₁.nextId, .condBr isFailure (d.blocks.length + 1) d.blocks.length)) hsound₁ rfl
    (List.forall_mem_singleton.2 (Set.union_subset hV₁ Draft.subset_out hcond)) (hs₁.fresh _)
  have hs₂ := hs₁.branch (hsound₁.current_lt hp₁.isOpen).1
    (.condBr isFailure (d.blocks.length + 1) d.blocks.length)
    [d.blocks.length, d.blocks.length + 1] (d.blocks.length + 1) .sealed
  rw [returns_emitUnit.bind_iff, returns_setInsertPoint.bind_iff] at hreturns
  obtain ⟨_, s₃, hreturns₃, hreturns⟩ := Run.returns_bind.1 hreturns
  obtain ⟨d₃, hs₃, hsound₃, hext₃, -⟩ :=
    hfailure _ _ () s₃ hs₂ hsound₂ hp₂.isOpen (hV₁.trans hout₂.ge) hreturns₃
  have hp₃ := hp₂.extends hext₃
  -- the branch that goes on
  obtain ⟨hsound₄, hp₄, hrest₄⟩ := hp₃.enterSuccess (x := (s₃.nextId, .unreachable)) hsound₃ rfl
    (hs₃.fresh _)
  have hs₄ := hs₃.branch (hsound₃.current_lt hp₃.isOpen).1 .unreachable [] d.blocks.length .sealed
  rw [returns_emitUnit.bind_iff, returns_setInsertPoint.bind_iff] at hreturns
  obtain ⟨a, s₅, hreturns₅, hreturns⟩ := Run.returns_bind.1 hreturns
  obtain ⟨d₅, hs₅, hsound₅, hext₅, hQ⟩ :=
    hsuccess _ _ a s₅ hs₄ hsound₄ hp₄.isOpen (hV₁.trans hrest₄) hreturns₅
  have hcurrent : d₅.current = d.blocks.length :=
    hs₅.current.symm.trans (hstays _ a s₅ hreturns₅)
  have hp₅ := hp₄.extends hext₅
  have hvals : V ∪ Q a ⊆ d₅.out args :=
    Set.union_subset ((hV₁.trans hrest₄).trans hext₅.out) hQ
  -- where the code goes on
  obtain ⟨hsound₆, hc, hout₆⟩ := hp₅.goOn (x := (s₅.nextId, .br (d.blocks.length + 2))) hsound
    hsound₅ rfl (hs₅.fresh _)
  have hs₆ := hs₅.branch (hsound₅.current_lt hp₅.isOpen).1 (.br (d.blocks.length + 2))
    [d.blocks.length + 2] (d.blocks.length + 2) .sealed
  rw [returns_emitUnit.bind_iff, returns_setInsertPoint.bind_iff] at hreturns
  rw [hcurrent] at hc
  obtain ⟨d₇, hs₇, hsound₇, hext₇, hT⟩ := hrest d _ a d.blocks.length c _ s' hsound hs₆ hsound₆
    (hc.mono hvals) (hvals.trans hout₆.ge) hreturns
  exact ⟨d₇, hs₇, hsound₇, hc.toExtends.trans hext₇, hT⟩

theorem emits_generateElement (isLValue : Bool) {arrayPtr length indexVal : Operand}
    (harray : arrayPtr ∈ V ∪ givenOperands args) (hlength : length ∈ V ∪ givenOperands args)
    (hindex : indexVal ∈ V ∪ givenOperands args) :
    Emits args V (generateElement isLValue arrayPtr length indexVal) fun v ↦ {v} := by
  have hconst {W : Set Operand} (w : Word) : Operand.const w ∈ W ∪ givenOperands args :=
    .inr (const_mem_given _ _)
  have hleft {W : Set Operand} {v w : Operand} (hv : v ∈ W ∪ givenOperands args) :
      v ∈ W ∪ {w} ∪ givenOperands args :=
    hv.imp Or.inl id
  have hlast {W : Set Operand} {w : Operand} : w ∈ W ∪ {w} ∪ givenOperands args := .inl (.inr rfl)
  rw [generateElement_eq]
  refine (emits_emit rfl (List.forall_mem_cons.2 ⟨hindex,
    List.forall_mem_singleton.2 (hconst 0)⟩)).bind fun isIndexNegative ↦ ?_
  refine (emits_emit rfl (List.forall_mem_cons.2 ⟨hleft hindex,
    List.forall_mem_singleton.2 (hleft hlength)⟩)).bind fun isIndexTooLarge ↦ ?_
  refine (emits_emit rfl (List.forall_mem_cons.2 ⟨hleft hlast,
    List.forall_mem_singleton.2 hlast⟩)).bind fun isOutOfBounds ↦ ?_
  have hfailure : Emits args (V ∪ {isIndexNegative} ∪ {isIndexTooLarge} ∪ {isOutOfBounds}) outOfBounds
      fun _ ↦ ∅ :=
    (emits_intrinsic _).bind fun _ ↦ emits_emitUnit rfl (List.forall_mem_singleton.2 (hconst 0))
  have hsuccess : Emits args (V ∪ {isIndexNegative} ∪ {isIndexTooLarge} ∪ {isOutOfBounds})
      (elementAddress arrayPtr indexVal) fun v ↦ {v} := by
    refine (emits_emit rfl (List.forall_mem_cons.2 ⟨hleft (hleft (hleft hindex)),
      List.forall_mem_singleton.2 (hconst 1)⟩)).bind fun adjustedIndex ↦ ?_
    exact emits_emit rfl (List.forall_mem_cons.2 ⟨hleft (hleft (hleft (hleft harray))),
      List.forall_mem_singleton.2 hlast⟩)
  refine emits_check hlast hfailure hsuccess ?_ ?_
  · intro s v s' hreturns
    obtain ⟨_, _, h₁, h₂⟩ := Run.returns_bind.1 hreturns
    obtain ⟨-, rfl⟩ := returns_emit_iff.1 h₁
    obtain ⟨-, rfl⟩ := returns_emit_iff.1 h₂
    rfl
  · intro d₀ d elementPtr last v s s' h₀ hs hsound hc hvals hreturns
    cases isLValue with
    | true =>
      obtain ⟨rfl, rfl⟩ := returns_emit_iff.1 hreturns
      obtain ⟨hs', hsound', hext, hmem⟩ := hs.write (i := .phi [(elementPtr, last)]) hsound hc.isOpen
        (hc.fits_phi (v := elementPtr) h₀ rfl (.inr rfl) (hs.fresh _)) rfl
      exact ⟨_, hs', hsound', hext, Set.singleton_subset_iff.2 hmem⟩
    | false =>
      exact emits_emit rfl (List.forall_mem_singleton.2 hlast) d s v s' hs hsound hc.isOpen hvals
        hreturns

end Sipc.Llvm
