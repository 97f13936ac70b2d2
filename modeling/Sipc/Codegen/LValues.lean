import Sipc.Codegen.ModuleCodegen
import Sipc.Semantic.Weeding.CheckAssignable

/-!
# Addresses in generated code

The weeding pass lets an assignment, an update, a loop item and an operand of `&` be a variable, a
field or an element reached through a variable or a pointer, or, but for `&`, a dereference. For each
of these the code generator produces an address, with one exception: a variable that names a function
is an integer, its index. Where that does not happen, every instruction of the module that needs a
pointer gets one (`ASTProgram.keeps_codegen`).

The flag `lValueGen` is what is known of the state along the way: `Keeps b m b' Q` says that with the
flag `b` on entry, `m` leaves the flag `b'` and a value that satisfies `Q`, while the tables stay
`Sound`.
-/

set_option autoImplicit false
set_option relaxedAutoImplicit false

namespace Sipc

open Llvm Library

/-- The expression is a variable that names a function. -/
def ASTExpr.NamesFunction (isFunction : String → Prop) : ASTExpr → Prop
  | .variableExpr _ x => isFunction x
  | _ => False

/-- An alloca slot, the address of a field or of an element, or an address converted from a pointer
value. -/
def Llvm.Kind.IsAddress : Kind → Prop
  | .slot | .field | .element | .converted => True
  | _ => False

theorem Llvm.Kind.IsAddress.isPointer {k : Kind} (h : k.IsAddress) : k.IsPointer := by
  cases k <;> trivial

namespace Llvm

/-- The flag `lValueGen`. It is all that is known, and nothing of it lasts. -/
structure Flag where
  lValueGen : Bool

instance : Preorder Flag where
  le _ _ := True
  le_refl _ := trivial
  le_trans _ _ _ _ _ := trivial

/-- The names in the tables are what they should be, and with `strict` the module is well formed. -/
structure Sound (isFunction : String → Prop) (strict : Prop) (s : CodegenState) : Prop where
  index : ∀ {x k}, s.functionIndex x = some k → isFunction x
  named : ∀ {x a}, s.namedValues x = some a → ¬ isFunction x
  formals : ∀ g, ∀ x ∈ s.functionFormalNames g, ¬ isFunction x
  args : ∀ F ∈ s.module.functions, ∀ x ∈ F.args, ¬ isFunction x
  calloc : ∀ {c}, s.calloc = some c → c.returns = .pointer
  wellFormed : strict → ∀ i ∈ s.module.instructions, i.WellFormed

/-- With `strict`, no address is asked of a function name. An address is generated exactly for the
other expressions. -/
def lValueGuarantee (isFunction : String → Prop) (wanted : ASTExpr → Prop) (strict : Prop) :
    Guarantee CodegenState GenEvent InternalError Flag where
  inv w s := s.lValueGen = w.lValueGen ∧ Sound isFunction strict s
  assumed
    | .addressed e _ => strict → ¬ e.NamesFunction isFunction
    | .entered _ _ _ => True
  ensured
    | .addressed e v => wanted e ∧ (v.kind.IsAddress ↔ ¬ e.NamesFunction isFunction)
    | .entered _ _ _ => True
  permitted _ := True

/-- From the flag `b` to the flag `b'`, with a value that satisfies `Q`. -/
def Keeps (isFunction : String → Prop) (wanted : ASTExpr → Prop) (strict : Prop) {α : Type}
    (b : Bool) (m : Generate α) (b' : Bool) (Q : α → Prop) : Prop :=
  (lValueGuarantee isFunction wanted strict).Holds ⟨b⟩ m fun w a ↦ w = ⟨b'⟩ ∧ Q a

section Rules

variable {isFunction : String → Prop} {wanted : ASTExpr → Prop} {strict : Prop} {α β : Type} {b b' b'' : Bool}

theorem Keeps.bind {m : Generate α} {f : α → Generate β} {Q : α → Prop} {R : β → Prop}
    (hm : Keeps isFunction wanted strict b m b' Q)
    (hf : ∀ a, Q a → Keeps isFunction wanted strict b' (f a) b'' R) :
    Keeps isFunction wanted strict b (m >>= f) b'' R := by
  refine Guarantee.Holds.bind hm ?_
  rintro w a - ⟨rfl, ha⟩
  exact hf a ha

theorem Keeps.mono {m : Generate α} {Q R : α → Prop} (h : Keeps isFunction wanted strict b m b' Q)
    (hQ : ∀ a, Q a → R a) : Keeps isFunction wanted strict b m b' R :=
  Guarantee.Holds.mono h fun _ a _ ⟨hw, ha⟩ ↦ ⟨hw, hQ a ha⟩

theorem keeps_pure {a : α} {Q : α → Prop} (h : Q a) :
    Keeps isFunction wanted strict b (pure a : Generate α) b Q :=
  Guarantee.holds_pure ⟨rfl, h⟩

theorem keeps_fail {e : InternalError} {Q : α → Prop} :
    Keeps isFunction wanted strict b (Run.fail e : Generate α) b' Q :=
  Guarantee.holds_fail trivial

/-- A step that reads or changes the state. -/
theorem keeps_access {f : CodegenState → α × CodegenState} {Q : α → Prop}
    (h : ∀ s, s.lValueGen = b → Sound isFunction strict s →
      (f s).2.lValueGen = b' ∧ Sound isFunction strict (f s).2 ∧ Q (f s).1) :
    Keeps isFunction wanted strict b (Run.access f : Generate α) b' Q := by
  refine Guarantee.holds_access fun s hs ↦ ?_
  obtain ⟨hflag, hsound, hQ⟩ := h s hs.1 hs.2
  exact ⟨⟨b'⟩, trivial, ⟨hflag, hsound⟩, rfl, hQ⟩

theorem keeps_entered (e : ASTExpr) (l a : Bool) :
    Keeps isFunction wanted strict b (Run.emit (.entered e l a) : Generate Unit) b fun _ ↦ True :=
  Guarantee.holds_emit fun _ ↦ ⟨trivial, rfl, trivial⟩

theorem keeps_orFail {e : InternalError} {o : Option α} {Q : α → Prop} (h : ∀ a, o = some a → Q a) :
    Keeps isFunction wanted strict b (Run.orFail e o : Generate α) b Q :=
  Guarantee.holds_orFail (fun a ha ↦ ⟨rfl, h a ha⟩) fun _ ↦ trivial

theorem keeps_get : Keeps isFunction wanted strict b get b fun s ↦
    s.lValueGen = b ∧ Sound isFunction strict s :=
  keeps_access fun _ hflag hsound ↦ ⟨hflag, hsound, hflag, hsound⟩

theorem keeps_modify {f : CodegenState → CodegenState}
    (h : ∀ s, s.lValueGen = b → Sound isFunction strict s →
      (f s).lValueGen = b' ∧ Sound isFunction strict (f s)) :
    Keeps isFunction wanted strict b (modify f) b' fun _ ↦ True :=
  keeps_access fun s hflag hsound ↦ ⟨(h s hflag hsound).1, (h s hflag hsound).2, trivial⟩

theorem keeps_update {f : CodegenState → CodegenState}
    (h : ∀ s, s.lValueGen = b → Sound isFunction strict s →
      (f s).lValueGen = s.lValueGen ∧ Sound isFunction strict (f s)) :
    Keeps isFunction wanted strict b (modify f) b fun _ ↦ True :=
  keeps_modify fun s hflag hs ↦ ⟨(h s hflag hs).1.trans hflag, (h s hflag hs).2⟩

/-- A change of the state that leaves the tables and the functions alone. -/
theorem Sound.congr {s s' : CodegenState} (h : Sound isFunction strict s)
    (hindex : s'.functionIndex = s.functionIndex) (hnamed : s'.namedValues = s.namedValues)
    (hformals : s'.functionFormalNames = s.functionFormalNames) (hmodule : s'.module = s.module)
    (hcalloc : s'.calloc = s.calloc) : Sound isFunction strict s' where
  index hx := h.index (hindex ▸ hx)
  named hx := h.named (hnamed ▸ hx)
  formals := hformals ▸ h.formals
  args := hmodule ▸ h.args
  calloc hc := h.calloc (hcalloc ▸ hc)
  wellFormed := hmodule ▸ h.wellFormed

/-- A step that may change what the tables do not hold. -/
theorem keeps_modify_rest {f : CodegenState → CodegenState}
    (hflag : ∀ s, (f s).lValueGen = s.lValueGen := by exact fun _ ↦ rfl)
    (hindex : ∀ s, (f s).functionIndex = s.functionIndex := by exact fun _ ↦ rfl)
    (hnamed : ∀ s, (f s).namedValues = s.namedValues := by exact fun _ ↦ rfl)
    (hformals : ∀ s, (f s).functionFormalNames = s.functionFormalNames := by exact fun _ ↦ rfl)
    (hmodule : ∀ s, (f s).module = s.module := by exact fun _ ↦ rfl)
    (hcalloc : ∀ s, (f s).calloc = s.calloc := by exact fun _ ↦ rfl) :
    Keeps isFunction wanted strict b (modify f) b fun _ ↦ True :=
  keeps_modify fun s hb hs ↦ ⟨(hflag s).trans hb,
    hs.congr (hindex s) (hnamed s) (hformals s) (hmodule s) (hcalloc s)⟩

theorem keeps_setLValueGen (c : Bool) :
    Keeps isFunction wanted strict b (modify fun s ↦ { s with lValueGen := c }) c fun _ ↦ True :=
  keeps_modify fun _ _ hs ↦ ⟨rfl, hs.congr rfl rfl rfl rfl rfl⟩

/-! ### Instructions -/

/-- The instructions after a block is changed, where the change only adds `i`. -/
theorem Module.mem_instructions_modifyBlock {m : Module} {f : ℕ} {l : IR.Label}
    {change : Block → Block} {i : Instruction}
    (hchange : ∀ blk, ∀ x ∈ change blk, x ∈ blk ∨ x.2 = i) {j : Instruction}
    (hj : j ∈ (m.modifyBlock f l change).instructions) : j ∈ m.instructions ∨ j = i := by
  have hmod : ∀ {γ : Type} {l : List γ} {n : ℕ} {g : γ → γ} {x : γ}, x ∈ l.modify n g →
      x ∈ l ∨ ∃ y ∈ l, x = g y := by
    intro γ l n g x hx
    obtain ⟨k, hk⟩ := List.getElem?_of_mem hx
    rw [List.getElem?_modify] at hk
    obtain ⟨y, hy, rfl⟩ := Option.map_eq_some_iff.1 hk
    by_cases hnk : n = k
    · exact Or.inr ⟨y, List.mem_of_getElem? hy, by rw [if_pos hnk]⟩
    · exact Or.inl (by rw [if_neg hnk]; exact List.mem_of_getElem? hy)
  obtain ⟨F, hF, hj⟩ := List.mem_flatMap.1 hj
  obtain ⟨blk, hblk, hj⟩ := List.mem_flatMap.1 hj
  obtain ⟨x, hx, rfl⟩ := List.mem_map.1 hj
  have hold : ∀ G ∈ m.functions, ∀ c ∈ G.blocks, ∀ x ∈ c, x.2 ∈ m.instructions :=
    fun G hG c hc x hx ↦ List.mem_flatMap.2 ⟨G, hG, List.mem_flatMap.2 ⟨c, hc,
      List.mem_map.2 ⟨x, hx, rfl⟩⟩⟩
  rcases hmod hF with hF | ⟨G, hG, rfl⟩
  · exact Or.inl (hold F hF blk hblk x hx)
  · rcases hmod hblk with hblk | ⟨c, hc, rfl⟩
    · exact Or.inl (hold G hG blk hblk x hx)
    · exact (hchange c x hx).imp_left (hold G hG c hc x)

theorem Module.args_of_mem_modifyBlock {m : Module} {f : ℕ} {l : IR.Label} {change : Block → Block}
    {F : Function} (hF : F ∈ (m.modifyBlock f l change).functions) :
    ∃ G ∈ m.functions, F.args = G.args := by
  obtain ⟨k, hk⟩ := List.getElem?_of_mem hF
  unfold Module.modifyBlock at hk
  rw [List.getElem?_modify] at hk
  obtain ⟨G, hG, rfl⟩ := Option.map_eq_some_iff.1 hk
  refine ⟨G, List.mem_of_getElem? hG, ?_⟩
  split_ifs <;> rfl

/-- Adding a block changes neither the arguments nor the instructions. -/
theorem Module.args_of_mem_addBlock {m : Module} {f : ℕ} {F : Function}
    (hF : F ∈ (m.addBlock f).functions) :
    ∃ G ∈ m.functions, F.args = G.args ∧ ∀ blk ∈ F.blocks, blk ∈ G.blocks ∨ blk = [] := by
  obtain ⟨k, hk⟩ := List.getElem?_of_mem hF
  unfold Module.addBlock at hk
  rw [List.getElem?_modify] at hk
  obtain ⟨G, hG, rfl⟩ := Option.map_eq_some_iff.1 hk
  refine ⟨G, List.mem_of_getElem? hG, ?_⟩
  split_ifs
  · refine ⟨rfl, fun blk hblk ↦ ?_⟩
    rcases List.mem_append.1 hblk with hblk | hblk
    · exact Or.inl hblk
    · exact Or.inr (List.mem_singleton.1 hblk)
  · exact ⟨rfl, fun _ hblk ↦ Or.inl hblk⟩

theorem Sound.modifyBlock {s : CodegenState} (h : Sound isFunction strict s) {l : IR.Label}
    {change : Block → Block} {i : Instruction} {n : ℕ}
    (hchange : ∀ blk, ∀ x ∈ change blk, x ∈ blk ∨ x.2 = i) (hi : strict → i.WellFormed) :
    Sound isFunction strict { s with
      module := s.module.modifyBlock s.insertFunction l change
      nextId := n } where
  index := h.index
  named := h.named
  formals := h.formals
  args F hF := by
    obtain ⟨G, hG, hargs⟩ := Module.args_of_mem_modifyBlock hF
    rw [hargs]
    exact h.args G hG
  calloc := h.calloc
  wellFormed hstrict j hj := by
    rcases Module.mem_instructions_modifyBlock hchange hj with hj | rfl
    · exact h.wellFormed hstrict j hj
    · exact hi hstrict

theorem Sound.insert {s : CodegenState} (h : Sound isFunction strict s) {i : Instruction}
    (hi : strict → i.WellFormed) : Sound isFunction strict (s.insert i) := by
  refine h.modifyBlock (fun blk x hx ↦ ?_) hi
  rcases List.mem_append.1 hx with hx | hx
  · exact Or.inl hx
  · exact Or.inr (by rw [List.mem_singleton.1 hx])

/-- Every use of an address in the instruction is of a pointer, if that was to be shown. -/
theorem keeps_emit {i : Instruction} (hi : strict → i.WellFormed := by exact fun _ ↦ trivial) :
    Keeps isFunction wanted strict b (emit i) b fun v ↦ v.kind = i.kind :=
  keeps_access fun _ hflag hs ↦ ⟨hflag, hs.insert hi, rfl⟩

theorem keeps_emitUnit {i : Instruction}
    (hi : strict → i.WellFormed := by exact fun _ ↦ trivial) :
    Keeps isFunction wanted strict b (emitUnit i) b fun _ ↦ True :=
  keeps_access fun _ hflag hs ↦ ⟨hflag, hs.insert hi, trivial⟩

theorem keeps_createEntryBlockAlloca (o : Origin) :
    Keeps isFunction wanted strict b (createEntryBlockAlloca o) b fun _ ↦ True :=
  keeps_access fun _ hflag hs ↦ ⟨hflag, hs.modifyBlock (i := .alloca .int) (fun blk x hx ↦
    (List.mem_cons.1 hx).symm.imp_right fun h ↦ by rw [h]) fun _ ↦ trivial, trivial⟩

theorem keeps_createBlock : Keeps isFunction wanted strict b createBlock b fun _ ↦ True := by
  refine keeps_access fun s hflag hs ↦ ⟨hflag, ?_, trivial⟩
  refine ⟨hs.index, hs.named, hs.formals, fun F hF ↦ ?_, hs.calloc, fun hstrict j hj ↦ ?_⟩
  · obtain ⟨G, hG, hargs, -⟩ := Module.args_of_mem_addBlock hF
    rw [hargs]
    exact hs.args G hG
  · refine hs.wellFormed hstrict j ?_
    obtain ⟨F, hF, hj⟩ := List.mem_flatMap.1 hj
    obtain ⟨blk, hblk, hj⟩ := List.mem_flatMap.1 hj
    obtain ⟨G, hG, -, hblocks⟩ := Module.args_of_mem_addBlock hF
    rcases hblocks blk hblk with hblk | rfl
    · exact List.mem_flatMap.2 ⟨G, hG, List.mem_flatMap.2 ⟨blk, hblk, hj⟩⟩
    · cases hj

theorem keeps_setInsertPoint (l : IR.Label) :
    Keeps isFunction wanted strict b (setInsertPoint l) b fun _ ↦ True :=
  keeps_modify_rest

theorem keeps_getInsertBlock : Keeps isFunction wanted strict b getInsertBlock b fun _ ↦ True :=
  keeps_access fun _ hflag hs ↦ ⟨hflag, hs, trivial⟩

theorem keeps_createFunction {name : String} {args : List String} {k : Kind}
    (hargs : ∀ x ∈ args, ¬ isFunction x) :
    Keeps isFunction wanted strict b (createFunction name args k) b fun F ↦ F.returns = k := by
  refine keeps_access fun s hflag hs ↦ ⟨hflag, ?_, rfl⟩
  refine ⟨hs.index, hs.named, hs.formals, fun F hF ↦ ?_, hs.calloc, fun hstrict j hj ↦ ?_⟩
  · rcases List.mem_append.1 hF with hF | hF
    · exact hs.args F hF
    · rw [List.mem_singleton.1 hF]
      exact hargs
  · refine hs.wellFormed hstrict j ?_
    unfold CodegenState.create Module.create Module.instructions at hj
    rw [List.flatMap_append, List.mem_append] at hj
    rcases hj with hj | hj
    · exact hj
    · simp at hj

theorem keeps_intrinsic (i : Intrinsic) :
    Keeps isFunction wanted strict b (intrinsic i) b fun _ ↦ True := by
  unfold intrinsic
  refine keeps_get.bind fun s _ ↦ ?_
  split
  · exact keeps_pure trivial
  · refine (keeps_createFunction (List.forall_mem_nil _)).bind fun f _ ↦ ?_
    exact (keeps_modify_rest).bind fun _ _ ↦ keeps_pure trivial

theorem keeps_callNop : Keeps isFunction wanted strict b callNop b fun _ ↦ True := by
  unfold callNop
  refine keeps_get.bind fun s _ ↦ (keeps_orFail fun _ _ ↦ trivial).bind fun nop _ ↦ ?_
  exact keeps_emitUnit

theorem keeps_callCalloc (items size : Operand) :
    Keeps isFunction wanted strict b (callCalloc items size) b fun v ↦ v.kind.IsPointer := by
  unfold callCalloc
  refine keeps_get.bind fun s hs ↦ (keeps_orFail fun _ hc ↦ hs.2.calloc hc).bind fun c hc ↦ ?_
  refine (keeps_emit).mono fun v hv ↦ ?_
  change v.kind = c.returns at hv
  rw [hv, hc]
  trivial

theorem keeps_branchOn (condVal : Operand) (l l' : IR.Label) :
    Keeps isFunction wanted strict b (branchOn condVal l l') b fun _ ↦ True := by
  unfold branchOn
  exact (keeps_emit).bind fun _ _ ↦ keeps_emitUnit

theorem keeps_fieldSlot (field : String) :
    Keeps isFunction wanted strict b (fieldSlot field) b fun _ ↦ True := by
  refine keeps_access fun s hflag hs ↦ ?_
  split
  · exact ⟨hflag, hs, trivial⟩
  · exact ⟨hflag, hs.congr rfl rfl rfl rfl rfl, trivial⟩

theorem keeps_takeLValue : Keeps isFunction wanted strict b takeLValue false fun l ↦ l = b := by
  unfold takeLValue
  refine keeps_get.bind fun s hs ↦ (keeps_setLValueGen false).bind fun _ _ ↦ ?_
  exact keeps_pure hs.1

/-- The address of an expression is an address exactly if its code says so. -/
theorem keeps_address {e : ASTExpr} {code : Generate Operand} (he : wanted e)
    (h : Keeps isFunction wanted strict true code b' fun v ↦
      v.kind.IsAddress ↔ ¬ e.NamesFunction isFunction) :
    Keeps isFunction wanted strict b (address e code) false fun v ↦ strict → v.kind.IsPointer := by
  unfold address
  refine (keeps_setLValueGen true).bind fun _ _ ↦ h.bind fun v hv ↦ ?_
  refine (keeps_setLValueGen false).bind fun _ _ ↦ Keeps.bind (Q := fun _ ↦
    strict → v.kind.IsPointer) ?_ fun _ hp ↦ keeps_pure hp
  exact Guarantee.holds_emit fun hassumed ↦
    ⟨⟨he, hv⟩, rfl, fun hstrict ↦ (hv.2 (hassumed hstrict)).isPointer⟩

end Rules

end Llvm

/-! ### Expressions -/

/-- The expression of which a node wants the address. -/
def ASTNode.lValue : ASTNode → Option ASTExpr
  | .stmt (.assignStmt _ lhs _) => some lhs
  | .stmt (.updateStmt _ arg _) => some arg
  | .stmt (.forStmt _ item _ _) => some item
  | .expr (.refExpr _ var) => some var
  | _ => none

/-- The address of the expression is wanted by one of the nodes. -/
def WantedIn (events : List VisitEvent) (e : ASTExpr) : Prop :=
  ∃ n, .endVisit n ∈ events ∧ n.lValue = some e

/-- The weeding pass accepts every node that is left. -/
def Weeded (wanted : ASTExpr → Prop) (events : List VisitEvent) : Prop :=
  ∀ n, .endVisit n ∈ events →
    CheckAssignable.endVisit n = .ok () ∧ ∀ e, n.lValue = some e → wanted e

section Weeded

variable {wanted : ASTExpr → Prop}

theorem Weeded.of_subset {es es' : List VisitEvent} (h : Weeded wanted es) (hsub : es' ⊆ es) :
    Weeded wanted es' :=
  fun n hn ↦ h n (hsub hn)

theorem Weeded.of_append {es es' : List VisitEvent} (h : Weeded wanted (es ++ es')) :
    Weeded wanted es ∧ Weeded wanted es' :=
  ⟨h.of_subset (List.subset_append_left _ _), h.of_subset (List.subset_append_right _ _)⟩

/-- The node itself, and what is inside it. -/
theorem Weeded.of_visiting {n : ASTNode} {inner : List VisitEvent}
    (h : Weeded wanted (visiting n inner)) :
    (CheckAssignable.endVisit n = .ok () ∧ ∀ e, n.lValue = some e → wanted e) ∧
      Weeded wanted inner := by
  refine ⟨h n (by simp [visiting]), h.of_subset fun ev hev ↦ ?_⟩
  simp [visiting, hev]

end Weeded

theorem of_ite_eq_ok {c : Prop} [Decidable c] {e : SemanticError}
    (h : (if c then .ok () else .error e : Except SemanticError Unit) = .ok ()) : c := by
  by_contra hc
  rw [if_neg hc] at h
  cases h

section Generate

variable {isFunction : String → Prop} {wanted : ASTExpr → Prop} {strict : Prop} {b : Bool}

theorem BinaryOp.keeps_generate (op : BinaryOp) (l r : Operand) :
    Keeps isFunction wanted strict b (op.generate l r) b fun _ ↦ True := by
  have hcompare : ∀ p : IR.Predicate, Keeps isFunction wanted strict b
      (do let cmp ← emit (.icmp p l r); emit (.zext cmp)) b fun _ ↦ True := fun p ↦
    (keeps_emit).bind fun _ _ ↦ (keeps_emit).mono fun _ _ ↦ trivial
  cases op
  case gt | ge | lt | le | eq | ne => exact hcompare _
  all_goals exact (keeps_emit).mono fun _ _ ↦ trivial

/-- A local variable is stored in its slot, and the name of a function is its index. -/
theorem keeps_generateVariable (x : String) :
    Keeps isFunction wanted strict b (generateVariable x) b fun v ↦
      b = true → (v.kind.IsAddress ↔ ¬ isFunction x) := by
  unfold generateVariable
  refine keeps_get.bind fun s hs ↦ ?_
  split
  · next a ha =>
    split_ifs with hflag
    · exact keeps_pure fun _ ↦ iff_of_true trivial (hs.2.named ha)
    · exact (keeps_emit (by exact fun _ ↦ trivial)).mono fun _ _ hb ↦ absurd (hs.1.trans hb) hflag
  · next hnone =>
    split
    · next k hk => exact keeps_pure fun _ ↦ iff_of_false id (not_not.2 (hs.2.index hk))
    · exact keeps_fail

theorem keeps_generateElement {isLValue : Bool} {arrayPtr : Operand} (length indexVal : Operand)
    (hptr : arrayPtr.kind.IsPointer) :
    Keeps isFunction wanted strict b (generateElement isLValue arrayPtr length indexVal) b fun v ↦
      isLValue = true → v.kind.IsAddress := by
  unfold generateElement
  refine (keeps_emit).bind fun _ _ ↦ (keeps_emit).bind fun _ _ ↦ (keeps_emit).bind fun _ _ ↦ ?_
  refine keeps_createBlock.bind fun inBounds _ ↦ keeps_createBlock.bind fun outOfBounds _ ↦ ?_
  refine keeps_createBlock.bind fun continue' _ ↦ (keeps_emitUnit).bind fun _ _ ↦ ?_
  refine (keeps_setInsertPoint _).bind fun _ _ ↦ (keeps_intrinsic _).bind fun error _ ↦ ?_
  refine (keeps_emitUnit).bind fun _ _ ↦ (keeps_emitUnit).bind fun _ _ ↦ ?_
  refine (keeps_setInsertPoint _).bind fun _ _ ↦ (keeps_emit).bind fun adjustedIndex _ ↦ ?_
  refine (keeps_emit (by exact fun _ ↦ hptr)).bind fun elementPtr hel ↦ (keeps_emitUnit).bind fun _ _ ↦ ?_
  refine (keeps_setInsertPoint _).bind fun _ _ ↦ ?_
  have hkind : elementPtr.kind = .element := hel
  have hel' : elementPtr.kind.IsPointer := by rw [hkind]; trivial
  split_ifs with hl
  · refine (keeps_emit).mono fun v hv _ ↦ ?_
    change v.kind = elementPtr.kind at hv
    rw [hv, hkind]
    trivial
  · refine (keeps_emit (by exact fun _ ↦ hel')).mono fun v _ h ↦ absurd h hl

mutual

theorem ASTExpr.keeps_generate : ∀ e : ASTExpr, Weeded wanted e.accept →
    Keeps isFunction wanted strict false e.generate false fun _ ↦ True
  | .numberExpr _ _, _ => by
    unfold ASTExpr.generate
    exact keeps_get.bind fun s _ ↦ (keeps_entered _ _ _).bind fun _ _ ↦ keeps_pure trivial
  | .boolExpr _ _, _ => by
    unfold ASTExpr.generate
    exact keeps_get.bind fun s _ ↦ (keeps_entered _ _ _).bind fun _ _ ↦ keeps_pure trivial
  | .inputExpr _, _ => by
    unfold ASTExpr.generate
    refine keeps_get.bind fun s _ ↦ (keeps_entered _ _ _).bind fun _ _ ↦ ?_
    exact (keeps_intrinsic _).bind fun _ _ ↦ (keeps_emit).mono fun _ _ ↦ trivial
  | .nullExpr _, _ => by
    unfold ASTExpr.generate
    refine keeps_get.bind fun s _ ↦ (keeps_entered _ _ _).bind fun _ _ ↦ ?_
    exact (keeps_emit (by exact fun _ ↦ trivial)).mono fun _ _ ↦ trivial
  | .variableExpr _ x, _ => by
    unfold ASTExpr.generate
    refine keeps_get.bind fun s _ ↦ (keeps_entered _ _ _).bind fun _ _ ↦ ?_
    exact (keeps_generateVariable x).mono fun _ _ ↦ trivial
  | .binaryExpr _ op l r, hw => by
    obtain ⟨hl, hr⟩ := hw.of_visiting.2.of_append
    unfold ASTExpr.generate
    refine keeps_get.bind fun s _ ↦ (keeps_entered _ _ _).bind fun _ _ ↦ ?_
    refine (l.keeps_generate hl).bind fun _ _ ↦ (r.keeps_generate hr).bind fun _ _ ↦ ?_
    exact op.keeps_generate _ _
  | .notExpr _ a, hw => by
    unfold ASTExpr.generate
    refine keeps_get.bind fun s _ ↦ (keeps_entered _ _ _).bind fun _ _ ↦ ?_
    refine (a.keeps_generate hw.of_visiting.2).bind fun _ _ ↦ ?_
    exact (keeps_emit).mono fun _ _ ↦ trivial
  | .negExpr _ a, hw => by
    unfold ASTExpr.generate
    refine keeps_get.bind fun s _ ↦ (keeps_entered _ _ _).bind fun _ _ ↦ ?_
    refine (a.keeps_generate hw.of_visiting.2).bind fun _ _ ↦ ?_
    exact (keeps_emit).mono fun _ _ ↦ trivial
  | .funAppExpr _ f as, hw => by
    obtain ⟨hf, has⟩ := hw.of_visiting.2.of_append
    unfold ASTExpr.generate
    refine keeps_get.bind fun s _ ↦ (keeps_entered _ _ _).bind fun _ _ ↦ ?_
    refine (f.keeps_generate hf).bind fun _ _ ↦ (keeps_emit).bind fun gep hgep ↦ ?_
    have hgep' : gep.kind.IsPointer := by rw [show gep.kind = .pointer from hgep]; trivial
    refine (keeps_emit (by exact fun _ ↦ hgep')).bind fun ptr hptr ↦ ?_
    have hptr' : ptr.kind.IsPointer := by rw [show ptr.kind = .pointer from hptr]; trivial
    refine (ASTExpr.keeps_generateList as has).bind fun _ _ ↦ ?_
    exact (keeps_emit (by exact fun _ ↦ hptr')).mono fun _ _ ↦ trivial
  | .allocExpr _ a, hw => by
    unfold ASTExpr.generate
    refine keeps_get.bind fun s _ ↦ (keeps_entered _ _ _).bind fun _ _ ↦ ?_
    refine (keeps_modify_rest).bind fun _ _ ↦ (a.keeps_generate hw.of_visiting.2).bind fun _ _ ↦ ?_
    refine (keeps_modify_rest).bind fun _ _ ↦ (keeps_callCalloc _ _).bind fun _ hptr ↦ ?_
    refine (keeps_emitUnit (by exact fun _ ↦ hptr)).bind fun _ _ ↦ ?_
    exact (keeps_emit (by exact fun _ ↦ hptr)).mono fun _ _ ↦ trivial
  | .refExpr _ a, hw => by
    obtain ⟨hnode, ha⟩ := hw.of_visiting
    unfold ASTExpr.generate
    refine keeps_get.bind fun s _ ↦ (keeps_entered _ _ _).bind fun _ _ ↦ ?_
    have hassign : isAssignableOrDeRef a := by
      have hvar : isAssignable a = true := of_ite_eq_ok hnode.1
      unfold isAssignableOrDeRef
      split
      · rfl
      · exact hvar
    refine (a.keeps_generateAddress hassign (hnode.2 _ rfl) ha).bind fun _ hptr ↦ ?_
    exact (keeps_emit hptr).mono fun _ _ ↦ trivial
  | .deRefExpr _ a, hw => by
    unfold ASTExpr.generate
    refine keeps_get.bind fun s _ ↦ (keeps_entered _ _ _).bind fun _ _ ↦ ?_
    refine keeps_takeLValue.bind fun isLValue hl ↦ ?_
    refine (a.keeps_generate hw.of_visiting.2).bind fun _ _ ↦ (keeps_emit).bind fun v hv ↦ ?_
    have hptr : v.kind.IsPointer := by rw [show v.kind = .converted from hv]; trivial
    subst hl
    exact (keeps_emit (by exact fun _ ↦ hptr)).mono fun _ _ ↦ trivial
  | .recordExpr _ fs, hw => by
    unfold ASTExpr.generate
    refine keeps_get.bind fun s _ ↦ (keeps_entered _ _ _).bind fun _ _ ↦ ?_
    refine keeps_get.bind fun s _ ↦ ?_
    split_ifs
    · refine (keeps_emit).bind fun slot hslot ↦ (keeps_callCalloc _ _).bind fun record hrecord ↦ ?_
      have hslot' : slot.kind.IsPointer := by rw [show slot.kind = .slot from hslot]; trivial
      refine (keeps_emitUnit (by exact fun _ ↦ hslot')).bind fun _ _ ↦ ?_
      refine (keeps_emit (by exact fun _ ↦ hslot')).bind fun loadInst hload ↦ ?_
      have hload' : loadInst.kind.IsPointer := by
        rw [show loadInst.kind = .pointer from hload]
        trivial
      refine (ASTExpr.keeps_generateFields fs hload' hw.of_visiting.2).bind fun _ _ ↦ ?_
      exact (keeps_emit (by exact fun _ ↦ hrecord)).mono fun _ _ ↦ trivial
    · refine (keeps_emit).bind fun slot hslot ↦ ?_
      have hslot' : slot.kind.IsPointer := by rw [show slot.kind = .slot from hslot]; trivial
      refine (ASTExpr.keeps_generateFields fs hslot' hw.of_visiting.2).bind fun _ _ ↦ ?_
      exact (keeps_emit (by exact fun _ ↦ hslot')).mono fun _ _ ↦ trivial
  | .accessExpr _ r f, hw => by
    unfold ASTExpr.generate
    refine keeps_get.bind fun s _ ↦ (keeps_entered _ _ _).bind fun _ _ ↦ ?_
    refine keeps_takeLValue.bind fun isLValue hl ↦ keeps_get.bind fun s _ ↦ ?_
    refine (keeps_orFail fun _ _ ↦ trivial).bind fun index _ ↦ ?_
    refine (r.keeps_generate hw.of_visiting.2).bind fun _ _ ↦ (keeps_emit).bind fun v hv ↦ ?_
    have hptr : v.kind.IsPointer := by rw [show v.kind = .converted from hv]; trivial
    refine (keeps_emit (by exact fun _ ↦ hptr)).bind fun gep hgep ↦ ?_
    have hgep' : gep.kind.IsPointer := by rw [show gep.kind = .field from hgep]; trivial
    subst hl
    exact (keeps_emit (by exact fun _ ↦ hgep')).mono fun _ _ ↦ trivial
  | .ternaryExpr _ c t f, hw => by
    obtain ⟨hct, hf⟩ := hw.of_visiting.2.of_append
    obtain ⟨hc, ht⟩ := hct.of_append
    unfold ASTExpr.generate
    refine keeps_get.bind fun s _ ↦ (keeps_entered _ _ _).bind fun _ _ ↦ ?_
    refine (c.keeps_generate hc).bind fun _ _ ↦ keeps_createBlock.bind fun _ _ ↦ ?_
    refine keeps_createBlock.bind fun _ _ ↦ keeps_createBlock.bind fun _ _ ↦ ?_
    refine (keeps_branchOn _ _ _).bind fun _ _ ↦ (keeps_setInsertPoint _).bind fun _ _ ↦ ?_
    refine (t.keeps_generate ht).bind fun _ _ ↦ (keeps_emitUnit).bind fun _ _ ↦ ?_
    refine keeps_getInsertBlock.bind fun _ _ ↦ (keeps_setInsertPoint _).bind fun _ _ ↦ ?_
    refine (f.keeps_generate hf).bind fun _ _ ↦ (keeps_emitUnit).bind fun _ _ ↦ ?_
    refine keeps_getInsertBlock.bind fun _ _ ↦ (keeps_setInsertPoint _).bind fun _ _ ↦ ?_
    exact (keeps_emit).mono fun _ _ ↦ trivial
  | .arrayExpr _ es, hw => by
    unfold ASTExpr.generate
    refine keeps_get.bind fun s _ ↦ (keeps_entered _ _ _).bind fun _ _ ↦ ?_
    refine (keeps_callCalloc _ _).bind fun ptr hptr ↦ (keeps_emitUnit (by exact fun _ ↦ hptr)).bind fun _ _ ↦ ?_
    refine (ASTExpr.keeps_generateElements es 0 hptr hw.of_visiting.2).bind fun _ _ ↦ ?_
    exact (keeps_emit (by exact fun _ ↦ hptr)).mono fun _ _ ↦ trivial
  | .arrayOfExpr _ e₁ e₂, hw => by
    obtain ⟨h₁, h₂⟩ := hw.of_visiting.2.of_append
    unfold ASTExpr.generate
    refine keeps_get.bind fun s _ ↦ (keeps_entered _ _ _).bind fun _ _ ↦ ?_
    refine (e₁.keeps_generate h₁).bind fun _ _ ↦ (keeps_emit).bind fun _ _ ↦ ?_
    refine (keeps_callCalloc _ _).bind fun ptr hptr ↦ (keeps_emitUnit (by exact fun _ ↦ hptr)).bind fun _ _ ↦ ?_
    refine (keeps_emit).bind fun slot hslot ↦ ?_
    have hslot' : slot.kind.IsPointer := by rw [show slot.kind = .slot from hslot]; trivial
    refine (keeps_emitUnit (by exact fun _ ↦ hslot')).bind fun _ _ ↦ keeps_createBlock.bind fun _ _ ↦ ?_
    refine keeps_createBlock.bind fun _ _ ↦ keeps_createBlock.bind fun _ _ ↦ ?_
    refine (keeps_emitUnit).bind fun _ _ ↦ (keeps_setInsertPoint _).bind fun _ _ ↦ ?_
    refine (keeps_emit (by exact fun _ ↦ hslot')).bind fun _ _ ↦ (keeps_emit).bind fun _ _ ↦ ?_
    refine (keeps_emitUnit).bind fun _ _ ↦ (keeps_setInsertPoint _).bind fun _ _ ↦ ?_
    refine (e₂.keeps_generate h₂).bind fun _ _ ↦ (keeps_emit (by exact fun _ ↦ hptr)).bind fun el hel ↦ ?_
    have hel' : el.kind.IsPointer := by rw [show el.kind = .element from hel]; trivial
    refine (keeps_emitUnit (by exact fun _ ↦ hel')).bind fun _ _ ↦ (keeps_emit).bind fun _ _ ↦ ?_
    refine (keeps_emitUnit (by exact fun _ ↦ hslot')).bind fun _ _ ↦ (keeps_emitUnit).bind fun _ _ ↦ ?_
    refine (keeps_setInsertPoint _).bind fun _ _ ↦ ?_
    exact (keeps_emit (by exact fun _ ↦ hptr)).mono fun _ _ ↦ trivial
  | .indexingExpr _ a i, hw => by
    obtain ⟨ha, hi⟩ := hw.of_visiting.2.of_append
    unfold ASTExpr.generate
    refine keeps_get.bind fun s _ ↦ (keeps_entered _ _ _).bind fun _ _ ↦ ?_
    refine keeps_takeLValue.bind fun isLValue hl ↦ ?_
    refine (a.keeps_generate ha).bind fun _ _ ↦ (keeps_emit).bind fun v hv ↦ ?_
    have hptr : v.kind.IsPointer := by rw [show v.kind = .converted from hv]; trivial
    refine (keeps_emit (by exact fun _ ↦ hptr)).bind fun _ _ ↦ (i.keeps_generate hi).bind fun _ _ ↦ ?_
    refine (keeps_setLValueGen isLValue).bind fun _ _ ↦ ?_
    subst hl
    exact (keeps_generateElement _ _ hptr).mono fun _ _ ↦ trivial
  | .arrayLenExpr _ a, hw => by
    unfold ASTExpr.generate
    refine keeps_get.bind fun s _ ↦ (keeps_entered _ _ _).bind fun _ _ ↦ ?_
    refine (a.keeps_generate hw.of_visiting.2).bind fun _ _ ↦ (keeps_emit).bind fun v hv ↦ ?_
    have hptr : v.kind.IsPointer := by rw [show v.kind = .converted from hv]; trivial
    exact (keeps_emit (by exact fun _ ↦ hptr)).mono fun _ _ ↦ trivial

/-- Where an address is wanted, the flag is set, and the code gives one. -/
theorem ASTExpr.keeps_generateAddress : ∀ e : ASTExpr, isAssignableOrDeRef e → wanted e →
    Weeded wanted e.accept → Keeps isFunction wanted strict false (address e e.generate) false
      fun v ↦ strict → v.kind.IsPointer
  | .variableExpr n x, _, hwanted, _ => by
    have hcode : Keeps isFunction wanted strict true (ASTExpr.generate (.variableExpr n x)) true fun v ↦
        v.kind.IsAddress ↔ ¬ isFunction x := by
      unfold ASTExpr.generate
      refine keeps_get.bind fun s _ ↦ (keeps_entered _ _ _).bind fun _ _ ↦ ?_
      exact (keeps_generateVariable x).mono fun _ hv ↦ hv rfl
    exact keeps_address hwanted hcode
  | .deRefExpr n a, _, hwanted, hw => by
    have hcode : Keeps isFunction wanted strict true (ASTExpr.generate (.deRefExpr n a)) false fun v ↦
        v.kind.IsAddress ↔ ¬ False := by
      unfold ASTExpr.generate
      refine keeps_get.bind fun s _ ↦ (keeps_entered _ _ _).bind fun _ _ ↦ ?_
      refine keeps_takeLValue.bind fun isLValue hl ↦ ?_
      refine (a.keeps_generate hw.of_visiting.2).bind fun _ _ ↦ (keeps_emit).bind fun v hv ↦ ?_
      subst hl
      refine keeps_pure (iff_of_true ?_ id)
      rw [show v.kind = .converted from hv]
      trivial
    exact keeps_address hwanted hcode
  | .accessExpr n r f, _, hwanted, hw => by
    have hcode : Keeps isFunction wanted strict true (ASTExpr.generate (.accessExpr n r f)) false fun v ↦
        v.kind.IsAddress ↔ ¬ False := by
      unfold ASTExpr.generate
      refine keeps_get.bind fun s _ ↦ (keeps_entered _ _ _).bind fun _ _ ↦ ?_
      refine keeps_takeLValue.bind fun isLValue hl ↦ keeps_get.bind fun s _ ↦ ?_
      refine (keeps_orFail fun _ _ ↦ trivial).bind fun index _ ↦ ?_
      refine (r.keeps_generate hw.of_visiting.2).bind fun _ _ ↦ (keeps_emit).bind fun v hv ↦ ?_
      have hptr : v.kind.IsPointer := by rw [show v.kind = .converted from hv]; trivial
      refine (keeps_emit (by exact fun _ ↦ hptr)).bind fun gep hgep ↦ ?_
      subst hl
      refine keeps_pure (iff_of_true ?_ id)
      rw [show gep.kind = .field from hgep]
      trivial
    exact keeps_address hwanted hcode
  | .indexingExpr n a i, _, hwanted, hw => by
    obtain ⟨ha, hi⟩ := hw.of_visiting.2.of_append
    have hcode : Keeps isFunction wanted strict true (ASTExpr.generate (.indexingExpr n a i)) true fun v ↦
        v.kind.IsAddress ↔ ¬ False := by
      unfold ASTExpr.generate
      refine keeps_get.bind fun s _ ↦ (keeps_entered _ _ _).bind fun _ _ ↦ ?_
      refine keeps_takeLValue.bind fun isLValue hl ↦ ?_
      refine (a.keeps_generate ha).bind fun _ _ ↦ (keeps_emit).bind fun v hv ↦ ?_
      have hptr : v.kind.IsPointer := by rw [show v.kind = .converted from hv]; trivial
      refine (keeps_emit (by exact fun _ ↦ hptr)).bind fun _ _ ↦ ?_
      refine (i.keeps_generate hi).bind fun _ _ ↦ (keeps_setLValueGen isLValue).bind fun _ _ ↦ ?_
      subst hl
      exact (keeps_generateElement _ _ hptr).mono fun _ hv ↦ iff_of_true (hv rfl) id
    exact keeps_address hwanted hcode

theorem ASTExpr.keeps_generateList : ∀ es : List ASTExpr, Weeded wanted (ASTExpr.acceptList es) →
    Keeps isFunction wanted strict false (ASTExpr.generateList es) false fun _ ↦ True
  | [], _ => keeps_pure trivial
  | e :: es, hw => by
    obtain ⟨he, hes⟩ := Weeded.of_append hw
    unfold ASTExpr.generateList
    refine (e.keeps_generate he).bind fun _ _ ↦ (ASTExpr.keeps_generateList es hes).bind fun _ _ ↦ ?_
    exact keeps_pure trivial

theorem ASTExpr.keeps_generateElements : ∀ (es : List ASTExpr) (i : ℕ) {ptr : Operand},
    ptr.kind.IsPointer → Weeded wanted (ASTExpr.acceptList es) →
    Keeps isFunction wanted strict false (ASTExpr.generateElements ptr i es) false fun _ ↦ True
  | [], _, _, _, _ => keeps_pure trivial
  | e :: es, i, ptr, hptr, hw => by
    obtain ⟨he, hes⟩ := Weeded.of_append hw
    unfold ASTExpr.generateElements
    refine (e.keeps_generate he).bind fun _ _ ↦ (keeps_emit (by exact fun _ ↦ hptr)).bind fun el hel ↦ ?_
    have hel' : el.kind.IsPointer := by rw [show el.kind = .element from hel]; trivial
    refine (keeps_emitUnit (by exact fun _ ↦ hel')).bind fun _ _ ↦ ?_
    exact ASTExpr.keeps_generateElements es (i + 1) hptr hes

theorem ASTExpr.keeps_generateFields : ∀ (fs : List ASTFieldExpr) {record : Operand},
    record.kind.IsPointer → Weeded wanted (ASTExpr.acceptFields fs) →
    Keeps isFunction wanted strict false (ASTExpr.generateFields record fs) false fun _ ↦ True
  | [], _, _, _ => keeps_pure trivial
  | .mk _ f e :: fs, record, hrecord, hw => by
    obtain ⟨he, hfs⟩ := Weeded.of_append hw
    unfold ASTExpr.generateFields
    refine (keeps_fieldSlot f).bind fun _ _ ↦ (keeps_emit (by exact fun _ ↦ hrecord)).bind fun gep hgep ↦ ?_
    have hgep' : gep.kind.IsPointer := by rw [show gep.kind = .field from hgep]; trivial
    refine (e.keeps_generate he.of_visiting.2).bind fun _ _ ↦ ?_
    refine (keeps_emitUnit (by exact fun _ ↦ hgep')).bind fun _ _ ↦ ?_
    exact ASTExpr.keeps_generateFields fs hrecord hfs

end

/-! ### Statements -/

theorem keeps_generateRange {rangeStart rangeEnd : ASTExpr} {increment : Option ASTExpr}
    (hw : Weeded wanted (ForDomain.range rangeStart rangeEnd increment).accept) :
    Keeps isFunction wanted strict false (generateRange rangeStart rangeEnd increment) false
      fun _ ↦ True := by
  unfold generateRange
  cases increment with
  | none =>
    obtain ⟨hs, he⟩ := Weeded.of_append hw
    refine (rangeStart.keeps_generate hs).bind fun _ _ ↦ (rangeEnd.keeps_generate he).bind fun _ _ ↦ ?_
    exact keeps_pure trivial
  | some e =>
    obtain ⟨hse, hi⟩ := Weeded.of_append hw
    obtain ⟨hs, he⟩ := hse.of_append
    refine (rangeStart.keeps_generate hs).bind fun _ _ ↦ (rangeEnd.keeps_generate he).bind fun _ _ ↦ ?_
    exact (e.keeps_generate hi).bind fun _ _ ↦ keeps_pure trivial

mutual

theorem ASTStmt.keeps_generate : ∀ stmt : ASTStmt, Weeded wanted stmt.accept →
    Keeps isFunction wanted strict false stmt.generate false fun _ ↦ True
  | .assignStmt _ l r, hw => by
    obtain ⟨hnode, hinner⟩ := hw.of_visiting
    obtain ⟨hl, hr⟩ := hinner.of_append
    unfold ASTStmt.generate
    refine (l.keeps_generateAddress (of_ite_eq_ok hnode.1) (hnode.2 _ rfl) hl).bind fun _ hptr ↦ ?_
    exact (r.keeps_generate hr).bind fun _ _ ↦ keeps_emitUnit hptr
  | .updateStmt _ a _, hw => by
    obtain ⟨hnode, ha⟩ := hw.of_visiting
    unfold ASTStmt.generate
    refine (a.keeps_generateAddress (of_ite_eq_ok hnode.1) (hnode.2 _ rfl) ha).bind fun _ hptr ↦ ?_
    refine (keeps_emit hptr).bind fun _ _ ↦ (keeps_emit).bind fun _ _ ↦ keeps_emitUnit hptr
  | .blockStmt _ [], _ => by
    unfold ASTStmt.generate
    exact keeps_callNop
  | .blockStmt _ (stmt :: stmts), hw => by
    obtain ⟨hs, hss⟩ := hw.of_visiting.2.of_append
    unfold ASTStmt.generate
    exact (stmt.keeps_generate hs).bind fun _ _ ↦ ASTStmt.keeps_generateList stmts hss
  | .whileStmt _ c body, hw => by
    obtain ⟨hc, hbody⟩ := hw.of_visiting.2.of_append
    unfold ASTStmt.generate
    refine keeps_createBlock.bind fun _ _ ↦ keeps_createBlock.bind fun _ _ ↦ ?_
    refine keeps_createBlock.bind fun _ _ ↦ (keeps_emitUnit).bind fun _ _ ↦ ?_
    refine (keeps_setInsertPoint _).bind fun _ _ ↦ (c.keeps_generate hc).bind fun _ _ ↦ ?_
    refine (keeps_branchOn _ _ _).bind fun _ _ ↦ (keeps_setInsertPoint _).bind fun _ _ ↦ ?_
    refine (body.keeps_generate hbody).bind fun _ _ ↦ (keeps_emitUnit).bind fun _ _ ↦ ?_
    exact (keeps_setInsertPoint _).bind fun _ _ ↦ keeps_callNop
  | .forStmt _ item (.range rangeStart rangeEnd increment) body, hw => by
    obtain ⟨hnode, hinner⟩ := hw.of_visiting
    obtain ⟨hid, hbody⟩ := hinner.of_append
    obtain ⟨hitem, hdomain⟩ := hid.of_append
    unfold ASTStmt.generate
    refine keeps_createBlock.bind fun _ _ ↦ keeps_createBlock.bind fun _ _ ↦ ?_
    refine keeps_createBlock.bind fun _ _ ↦ ?_
    refine (item.keeps_generateAddress (of_ite_eq_ok hnode.1) (hnode.2 _ rfl) hitem).bind fun _ hptr ↦ ?_
    refine (keeps_generateRange hdomain).bind fun range _ ↦ ?_
    obtain ⟨startV, endV, incrementV⟩ := range
    refine (keeps_emitUnit hptr).bind fun _ _ ↦ (keeps_emitUnit).bind fun _ _ ↦ ?_
    refine (keeps_setInsertPoint _).bind fun _ _ ↦ (keeps_emit hptr).bind fun _ _ ↦ ?_
    refine (keeps_emit).bind fun _ _ ↦ (keeps_emitUnit).bind fun _ _ ↦ ?_
    refine (keeps_setInsertPoint _).bind fun _ _ ↦ (body.keeps_generate hbody).bind fun _ _ ↦ ?_
    refine (keeps_emit hptr).bind fun _ _ ↦ (keeps_emit).bind fun _ _ ↦ ?_
    refine (keeps_emitUnit hptr).bind fun _ _ ↦ (keeps_emitUnit).bind fun _ _ ↦ ?_
    exact (keeps_setInsertPoint _).bind fun _ _ ↦ keeps_callNop
  | .forStmt _ item (.iterator iterator) body, hw => by
    obtain ⟨hnode, hinner⟩ := hw.of_visiting
    obtain ⟨hid, hbody⟩ := hinner.of_append
    obtain ⟨hitem, hdomain⟩ := hid.of_append
    unfold ASTStmt.generate
    refine keeps_createBlock.bind fun _ _ ↦ keeps_createBlock.bind fun _ _ ↦ ?_
    refine keeps_createBlock.bind fun _ _ ↦ ?_
    refine (item.keeps_generateAddress (of_ite_eq_ok hnode.1) (hnode.2 _ rfl) hitem).bind fun _ hptr ↦ ?_
    refine (iterator.keeps_generate hdomain).bind fun _ _ ↦ (keeps_emit).bind fun slot hslot ↦ ?_
    have hslot' : slot.kind.IsPointer := by rw [show slot.kind = .slot from hslot]; trivial
    refine (keeps_emitUnit (by exact fun _ ↦ hslot')).bind fun _ _ ↦ ?_
    refine (keeps_emit).bind fun arrayPtr harray ↦ ?_
    have harray' : arrayPtr.kind.IsPointer := by
      rw [show arrayPtr.kind = .converted from harray]
      trivial
    refine (keeps_emit (by exact fun _ ↦ harray')).bind fun _ _ ↦ (keeps_emitUnit).bind fun _ _ ↦ ?_
    refine (keeps_setInsertPoint _).bind fun _ _ ↦ ?_
    refine (keeps_emit (by exact fun _ ↦ hslot')).bind fun _ _ ↦ (keeps_emit).bind fun _ _ ↦ ?_
    refine (keeps_emitUnit).bind fun _ _ ↦ (keeps_setInsertPoint _).bind fun _ _ ↦ ?_
    refine (keeps_emit (by exact fun _ ↦ hslot')).bind fun _ _ ↦ ?_
    refine (keeps_emit (by exact fun _ ↦ harray')).bind fun el hel ↦ ?_
    have hel' : el.kind.IsPointer := by rw [show el.kind = .element from hel]; trivial
    refine (keeps_emit (by exact fun _ ↦ hel')).bind fun _ _ ↦ ?_
    refine (keeps_emitUnit hptr).bind fun _ _ ↦ (body.keeps_generate hbody).bind fun _ _ ↦ ?_
    refine (keeps_emit).bind fun _ _ ↦ (keeps_emitUnit (by exact fun _ ↦ hslot')).bind fun _ _ ↦ ?_
    refine (keeps_emitUnit).bind fun _ _ ↦ ?_
    exact (keeps_setInsertPoint _).bind fun _ _ ↦ keeps_callNop
  | .ifStmt _ c t none, hw => by
    obtain ⟨hc, ht⟩ := hw.of_visiting.2.of_append
    unfold ASTStmt.generate ASTStmt.generateElse
    refine (c.keeps_generate hc).bind fun _ _ ↦ keeps_createBlock.bind fun _ _ ↦ ?_
    refine keeps_createBlock.bind fun _ _ ↦ keeps_createBlock.bind fun _ _ ↦ ?_
    refine (keeps_branchOn _ _ _).bind fun _ _ ↦ (keeps_setInsertPoint _).bind fun _ _ ↦ ?_
    refine (t.keeps_generate ht).bind fun _ _ ↦ (keeps_emitUnit).bind fun _ _ ↦ ?_
    refine (keeps_setInsertPoint _).bind fun _ _ ↦ keeps_callNop.bind fun _ _ ↦ ?_
    exact (keeps_emitUnit).bind fun _ _ ↦ (keeps_setInsertPoint _).bind fun _ _ ↦ keeps_callNop
  | .ifStmt _ c t (some f), hw => by
    obtain ⟨hct, hf⟩ := hw.of_visiting.2.of_append
    obtain ⟨hc, ht⟩ := hct.of_append
    unfold ASTStmt.generate ASTStmt.generateElse
    refine (c.keeps_generate hc).bind fun _ _ ↦ keeps_createBlock.bind fun _ _ ↦ ?_
    refine keeps_createBlock.bind fun _ _ ↦ keeps_createBlock.bind fun _ _ ↦ ?_
    refine (keeps_branchOn _ _ _).bind fun _ _ ↦ (keeps_setInsertPoint _).bind fun _ _ ↦ ?_
    refine (t.keeps_generate ht).bind fun _ _ ↦ (keeps_emitUnit).bind fun _ _ ↦ ?_
    refine (keeps_setInsertPoint _).bind fun _ _ ↦ (f.keeps_generate hf).bind fun _ _ ↦ ?_
    exact (keeps_emitUnit).bind fun _ _ ↦ (keeps_setInsertPoint _).bind fun _ _ ↦ keeps_callNop
  | .outputStmt _ a, hw => by
    unfold ASTStmt.generate
    refine (keeps_intrinsic _).bind fun _ _ ↦ (a.keeps_generate hw.of_visiting.2).bind fun _ _ ↦ ?_
    exact keeps_emitUnit
  | .errorStmt _ a, hw => by
    unfold ASTStmt.generate
    refine (keeps_intrinsic _).bind fun _ _ ↦ (a.keeps_generate hw.of_visiting.2).bind fun _ _ ↦ ?_
    exact keeps_emitUnit

theorem ASTStmt.keeps_generateList : ∀ stmts : List ASTStmt, Weeded wanted (ASTStmt.acceptList stmts) →
    Keeps isFunction wanted strict false (ASTStmt.generateList stmts) false fun _ ↦ True
  | [], _ => keeps_pure trivial
  | stmt :: stmts, hw => by
    obtain ⟨hs, hss⟩ := Weeded.of_append hw
    unfold ASTStmt.generateList
    exact (stmt.keeps_generate hs).bind fun _ _ ↦ ASTStmt.keeps_generateList stmts hss

end

/-! ### Functions and programs -/

/-- A loop keeps what each step does. -/
theorem keeps_forM {α : Type} {f : α → Generate Unit} :
    ∀ {as : List α}, (∀ a ∈ as, Keeps isFunction wanted strict b (f a) b fun _ ↦ True) →
      Keeps isFunction wanted strict b (as.forM f) b fun _ ↦ True
  | [], _ => keeps_pure trivial
  | a :: _, h => (h a List.mem_cons_self).bind fun _ _ ↦
      keeps_forM fun c hc ↦ h c (List.mem_cons_of_mem _ hc)

theorem keeps_mapM {α β : Type} {f : α → Generate β} :
    ∀ {as : List α}, (∀ a ∈ as, Keeps isFunction wanted strict b (f a) b fun _ ↦ True) →
      Keeps isFunction wanted strict b (as.mapM f) b fun _ ↦ True
  | [], _ => by
    rw [List.mapM_nil]
    exact keeps_pure trivial
  | a :: _, h => by
    rw [List.mapM_cons]
    refine (h a List.mem_cons_self).bind fun _ _ ↦ ?_
    refine (keeps_mapM fun c hc ↦ h c (List.mem_cons_of_mem _ hc)).bind fun _ _ ↦ ?_
    exact keeps_pure trivial

/-- A name that is no function may be bound. -/
theorem keeps_bindName {x : String} (hx : ¬ isFunction x) (a : Alloca) :
    Keeps isFunction wanted strict b (bindName x a) b fun _ ↦ True := by
  refine keeps_modify fun s hflag hs ↦ ⟨hflag, hs.index, fun {y c} hy ↦ ?_, hs.formals, hs.args,
    hs.calloc, hs.wellFormed⟩
  by_cases hyx : y = x
  · rw [hyx]
    exact hx
  · change Function.update s.namedValues x (some a) y = some c at hy
    rw [Function.update_of_ne hyx] at hy
    exact hs.named hy

theorem ASTDeclStmt.keeps_generate {stmt : ASTDeclStmt}
    (h : ∀ d ∈ stmt.vars, ¬ isFunction d.name) :
    Keeps isFunction wanted strict b stmt.generate b fun _ ↦ True := by
  unfold ASTDeclStmt.generate
  refine Keeps.bind (Q := fun _ ↦ True) (keeps_forM fun d hd ↦ ?_) fun _ _ ↦ ?_
  · unfold ASTDeclNode.generateLocal
    refine (keeps_createEntryBlockAlloca _).bind fun a _ ↦ ?_
    exact (keeps_emitUnit (by exact fun _ ↦ trivial)).bind fun _ _ ↦ keeps_bindName (h d hd) a
  · split_ifs
    · exact keeps_fail
    · exact keeps_pure trivial

theorem keeps_generateMainArg {x : String} (hx : ¬ isFunction x) (i : ℕ) :
    Keeps isFunction wanted strict b (generateMainArg x i) b fun _ ↦ True := by
  unfold generateMainArg
  refine (keeps_createEntryBlockAlloca _).bind fun a _ ↦ (keeps_emit).bind fun gep hgep ↦ ?_
  have hgep' : gep.kind.IsPointer := by rw [show gep.kind = .pointer from hgep]; trivial
  refine (keeps_emit (by exact fun _ ↦ hgep')).bind fun _ _ ↦ ?_
  exact (keeps_emitUnit (by exact fun _ ↦ trivial)).bind fun _ _ ↦ keeps_bindName hx a

theorem keeps_generateArg {x : String} (hx : ¬ isFunction x) (i : ℕ) :
    Keeps isFunction wanted strict b (generateArg x i) b fun _ ↦ True := by
  unfold generateArg
  refine (keeps_createEntryBlockAlloca _).bind fun a _ ↦ ?_
  exact (keeps_emitUnit (by exact fun _ ↦ trivial)).bind fun _ _ ↦ keeps_bindName hx a

theorem keeps_getFunction (name : String) :
    Keeps isFunction wanted strict b (Sipc.getFunction name) b fun _ ↦ True := by
  unfold Sipc.getFunction
  refine keeps_get.bind fun s hs ↦ ?_
  dsimp only
  split_ifs
  · split
    · exact keeps_pure trivial
    · refine (keeps_modify_rest).bind fun _ _ ↦ ?_
      exact (keeps_createFunction (List.forall_mem_nil _)).mono fun _ _ ↦ trivial
  · split
    · exact keeps_pure trivial
    · exact (keeps_createFunction (hs.2.formals name)).mono fun _ _ ↦ trivial

theorem keeps_parameterNames (f : ASTFunction) (F : FunctionRef) :
    Keeps isFunction wanted strict b (parameterNames f F) b fun names ↦ ∀ x ∈ names, ¬ isFunction x := by
  unfold parameterNames
  refine keeps_get.bind fun s hs ↦ ?_
  split_ifs
  · exact keeps_pure (hs.2.formals f.name)
  · refine keeps_pure fun x hx ↦ ?_
    cases hF : s.module.functions[F.index]? with
    | none =>
      rw [hF] at hx
      cases hx
    | some G =>
      rw [hF] at hx
      exact hs.2.args G (List.mem_of_getElem? hF) x hx

theorem ASTFunction.keeps_generatePrologue {f : ASTFunction}
    (hlocals : ∀ d ∈ f.localDecls, ¬ isFunction d.name) :
    Keeps isFunction wanted strict false f.generatePrologue false fun _ ↦ True := by
  unfold ASTFunction.generatePrologue
  refine (keeps_getFunction _).bind fun F _ ↦ (keeps_modify_rest).bind fun _ _ ↦ ?_
  refine keeps_createBlock.bind fun _ _ ↦ (keeps_setInsertPoint _).bind fun _ _ ↦ ?_
  refine Keeps.bind (Q := fun _ ↦ True) (keeps_update fun s _ hs ↦ ⟨rfl, ?_⟩) fun _ _ ↦ ?_
  · exact { hs with named := fun hx ↦ nomatch hx }
  refine (keeps_parameterNames f F).bind fun names hnames ↦ ?_
  refine Keeps.bind (Q := fun _ ↦ True) (keeps_forM fun a ha ↦ ?_) fun _ _ ↦
    keeps_forM fun stmt hstmt ↦ ?_
  · have hname : ¬ isFunction a.1 := hnames a.1 (List.mem_of_getElem?
      (List.mk_mem_zipIdx_iff_getElem?.1 ha))
    dsimp only
    split_ifs
    · exact keeps_generateMainArg hname a.2
    · exact keeps_generateArg hname a.2
  · exact ASTDeclStmt.keeps_generate fun d hd ↦ hlocals d
      (List.mem_append_right _ (List.mem_flatMap.2 ⟨stmt, hstmt, hd⟩))

theorem ASTFunction.keeps_generate {f : ASTFunction} (hw : Weeded wanted f.accept)
    (hlocals : ∀ d ∈ f.localDecls, ¬ isFunction d.name) :
    Keeps isFunction wanted strict false f.generate false fun _ ↦ True := by
  have hbody : Weeded wanted (ASTStmt.acceptList f.body ++ f.ret.accept) := by
    refine hw.of_subset fun ev hev ↦ ?_
    rw [f.accept_eq]
    refine List.mem_cons_of_mem _ (List.mem_cons_of_mem _ (List.mem_cons_of_mem _ ?_))
    exact List.mem_append_left _ (List.mem_append_right _ hev)
  obtain ⟨hstmts, hret⟩ := hbody.of_append
  unfold ASTFunction.generate
  refine (f.keeps_generatePrologue hlocals).bind fun _ _ ↦ ?_
  refine (ASTStmt.keeps_generateList f.body hstmts).bind fun _ _ ↦ ?_
  exact (f.ret.arg.keeps_generate hret.of_visiting.2).bind fun _ _ ↦ keeps_emitUnit

/-- The tables of a program whose formals are no functions. -/
theorem Llvm.Sound.addFunctions {fs : List ASTFunction}
    (hnames : ∀ f ∈ fs, isFunction f.name)
    (hformals : ∀ f ∈ fs, ∀ d ∈ f.formals, ¬ isFunction d.name) {s : CodegenState}
    (hs : Sound isFunction strict s) : Sound isFunction strict (s.addFunctions fs) ∧
      (s.addFunctions fs).lValueGen = s.lValueGen := by
  unfold CodegenState.addFunctions
  have hmem : ∀ a ∈ fs.zipIdx, a.1 ∈ fs := fun a ha ↦
    List.mem_of_getElem? (List.mk_mem_zipIdx_iff_getElem?.1 ha)
  generalize fs.zipIdx = l at hmem
  induction l generalizing s with
  | nil => exact ⟨hs, rfl⟩
  | cons a l ih =>
    rw [List.foldl_cons]
    have ha := hmem a List.mem_cons_self
    refine ih ?_ fun c hc ↦ hmem c (List.mem_cons_of_mem _ hc)
    refine ⟨fun {x k} hx ↦ ?_, hs.named, fun g x hx ↦ ?_, hs.args, hs.calloc, hs.wellFormed⟩
    · by_cases hxa : x = a.1.name
      · rw [hxa]
        exact hnames a.1 ha
      · simp only [Function.update_of_ne hxa] at hx
        exact hs.index hx
    · by_cases hg : g = a.1.name
      · simp only [hg, Function.update_self] at hx
        obtain ⟨d, hd, rfl⟩ := List.mem_map.1 hx
        exact hformals a.1 ha d hd
      · simp only [Function.update_of_ne hg] at hx
        exact hs.formals g x hx

theorem keeps_ensureMain : Keeps isFunction wanted strict b ensureMain b fun _ ↦ True := by
  unfold ensureMain
  refine keeps_get.bind fun s _ ↦ ?_
  split_ifs
  · unfold generateUndefinedMain
    refine (keeps_createFunction (List.forall_mem_nil _)).bind fun F _ ↦ ?_
    refine (keeps_modify_rest).bind fun _ _ ↦ keeps_createBlock.bind fun _ _ ↦ ?_
    refine (keeps_setInsertPoint _).bind fun _ _ ↦ ?_
    refine (keeps_createFunction (List.forall_mem_nil _)).bind fun undef _ ↦ ?_
    exact (keeps_emitUnit).bind fun _ _ ↦ keeps_emitUnit
  · exact keeps_pure trivial

theorem ASTProgram.keeps_declareFunctions {p : ASTProgram} (fields : List String)
    (hnames : ∀ f ∈ p.functions, isFunction f.name)
    (hlocals : ∀ f ∈ p.functions, ∀ d ∈ f.localDecls, ¬ isFunction d.name) :
    Keeps isFunction wanted strict b (p.declareFunctions fields) b fun _ ↦ True := by
  unfold ASTProgram.declareFunctions
  refine Keeps.bind (Q := fun _ ↦ True) (keeps_update fun s _ hs ↦ ⟨rfl, ?_⟩) fun _ _ ↦ ?_
  · exact { hs with args := fun _ h ↦ (nomatch h), wellFormed := fun _ _ h ↦ (nomatch h) }
  refine (keeps_createFunction (List.forall_mem_nil _)).bind fun nop _ ↦ ?_
  refine (keeps_modify_rest).bind fun _ _ ↦ ?_
  refine Keeps.bind (Q := fun _ ↦ True) (keeps_update fun s _ hs ↦ ?_) fun _ _ ↦ ?_
  · obtain ⟨hs', hflag'⟩ := hs.addFunctions hnames fun f hf d hd ↦
      hlocals f hf d (List.mem_append_left _ hd)
    exact ⟨hflag', hs'⟩
  refine (keeps_mapM fun f _ ↦ keeps_getFunction f.name).bind fun fs _ ↦ ?_
  refine Keeps.bind (Q := fun _ ↦ True) (keeps_update fun s _ hs ↦ ⟨rfl, ?_⟩) fun _ _ ↦ ?_
  · exact { hs with }
  refine keeps_ensureMain.bind fun _ _ ↦ ?_
  refine Keeps.bind (Q := fun _ ↦ True) (keeps_update fun s _ hs ↦ ⟨rfl, ?_⟩) fun _ _ ↦ ?_
  · exact { hs with }
  refine (keeps_createFunction (List.forall_mem_nil _)).bind fun calloc hcalloc ↦ ?_
  refine Keeps.bind (Q := fun _ ↦ True) (keeps_update fun s _ hs ↦ ⟨rfl, ?_⟩) fun _ _ ↦
    keeps_update fun s _ hs ↦ ?_
  · refine { hs with calloc := fun hc ↦ ?_ }
    cases hc
    exact hcalloc
  · have hfields : ∀ s : CodegenState, Sound isFunction strict s →
        Sound isFunction strict (s.addFields fields) ∧
          (s.addFields fields).lValueGen = s.lValueGen := by
      intro s hs
      unfold CodegenState.addFields
      generalize fields.zipIdx = l
      induction l generalizing s with
      | nil => exact ⟨hs.congr rfl rfl rfl rfl rfl, rfl⟩
      | cons a l ih =>
        rw [List.foldl_cons]
        exact ih _ (hs.congr rfl rfl rfl rfl rfl)
    exact ⟨(hfields s hs).2, (hfields s hs).1⟩

/-- The module that the program is compiled to is well formed in its uses of addresses, if that was
to be shown. -/
theorem ASTProgram.keeps_codegen {p : ASTProgram} (fields : List String) (hw : Weeded wanted p.accept)
    (hnames : ∀ f ∈ p.functions, isFunction f.name)
    (hlocals : ∀ f ∈ p.functions, ∀ d ∈ f.localDecls, ¬ isFunction d.name) :
    Keeps isFunction wanted strict false (p.codegen fields) false fun m ↦
      strict → ∀ i ∈ m.instructions, i.WellFormed := by
  unfold ASTProgram.codegen
  refine (p.keeps_declareFunctions fields hnames hlocals).bind fun _ _ ↦ ?_
  refine Keeps.bind (Q := fun _ ↦ True) (keeps_forM fun f hf ↦ ?_) fun _ _ ↦ ?_
  · refine ASTFunction.keeps_generate (hw.of_subset fun ev hev ↦ ?_) (hlocals f hf)
    exact List.mem_flatMap.2 ⟨f, hf, hev⟩
  · exact keeps_get.bind fun s hs ↦ keeps_pure hs.2.wellFormed

end Generate

end Sipc
