import Sipc.Codegen.LValues

/-!
# The flags of the code generator

`lValueGen` and `allocFlag` are global variables that some methods set, clear or restore on the way
through an expression. What a method does to them depends on the expression and on their values
before, and on nothing else: `ASTExpr.entries` lists the sub-expressions with the flags they are
entered with, and `ASTExpr.flagsAfter` are the flags that are left. The generation of code enters
exactly these (`ASTProgram.enters_codegen`), up to the point where it fails.

What the flags are for is `ASTExpr.scoped`: an address is wanted of the expressions that are assigned,
updated, iterated over or an operand of `&`, and a record is allocated on the heap inside the
initialiser of an `alloc`.
-/

set_option autoImplicit false
set_option relaxedAutoImplicit false

namespace Sipc

open Llvm Library

namespace Llvm

/-- The two flags. -/
structure Flags where
  lValueGen : Bool
  allocFlag : Bool
  deriving DecidableEq

def CodegenState.flags (s : CodegenState) : Flags :=
  ⟨s.lValueGen, s.allocFlag⟩

end Llvm

/-- An expression and the flags that its code is generated with. -/
abbrev Entry :=
  ASTExpr × Flags

/-! ### What the methods do to the flags -/

mutual

/-- The flags after the code of an expression. -/
def ASTExpr.flagsAfter (b : Flags) : ASTExpr → Flags
  | .numberExpr _ _ | .boolExpr _ _ | .inputExpr _ | .nullExpr _ | .variableExpr _ _ => b
  | .binaryExpr _ _ l r => r.flagsAfter (l.flagsAfter b)
  | .notExpr _ a | .negExpr _ a | .arrayLenExpr _ a => a.flagsAfter b
  | .funAppExpr _ f as => ASTExpr.flagsAfterList (f.flagsAfter b) as
  | .allocExpr _ a => { a.flagsAfter { b with allocFlag := true } with allocFlag := false }
  | .refExpr _ a => { a.flagsAfter { b with lValueGen := true } with lValueGen := false }
  | .deRefExpr _ a | .accessExpr _ a _ => a.flagsAfter { b with lValueGen := false }
  | .recordExpr _ fs => ASTExpr.flagsAfterFields b fs
  | .ternaryExpr _ c t f => f.flagsAfter (t.flagsAfter (c.flagsAfter b))
  | .arrayExpr _ es => ASTExpr.flagsAfterList b es
  | .arrayOfExpr _ e₁ e₂ => e₂.flagsAfter (e₁.flagsAfter b)
  | .indexingExpr _ a i =>
    { i.flagsAfter (a.flagsAfter { b with lValueGen := false }) with lValueGen := b.lValueGen }

def ASTExpr.flagsAfterList (b : Flags) : List ASTExpr → Flags
  | [] => b
  | e :: es => ASTExpr.flagsAfterList (e.flagsAfter b) es

def ASTExpr.flagsAfterFields (b : Flags) : List ASTFieldExpr → Flags
  | [] => b
  | .mk _ _ e :: fs => ASTExpr.flagsAfterFields (e.flagsAfter b) fs

end

mutual

/-- The expressions that the code of an expression enters, in order, with the flags on entry. -/
def ASTExpr.entries (b : Flags) : ASTExpr → List Entry
  | e@(.numberExpr _ _) => [(e, b)]
  | e@(.boolExpr _ _) => [(e, b)]
  | e@(.inputExpr _) => [(e, b)]
  | e@(.nullExpr _) => [(e, b)]
  | e@(.variableExpr _ _) => [(e, b)]
  | e@(.binaryExpr _ _ l r) => (e, b) :: (l.entries b ++ r.entries (l.flagsAfter b))
  | e@(.notExpr _ a) => (e, b) :: a.entries b
  | e@(.negExpr _ a) => (e, b) :: a.entries b
  | e@(.arrayLenExpr _ a) => (e, b) :: a.entries b
  | e@(.funAppExpr _ f as) =>
    (e, b) :: (f.entries b ++ ASTExpr.entriesList (f.flagsAfter b) as)
  | e@(.allocExpr _ a) => (e, b) :: a.entries { b with allocFlag := true }
  | e@(.refExpr _ a) => (e, b) :: a.entries { b with lValueGen := true }
  | e@(.deRefExpr _ a) => (e, b) :: a.entries { b with lValueGen := false }
  | e@(.accessExpr _ a _) => (e, b) :: a.entries { b with lValueGen := false }
  | e@(.recordExpr _ fs) => (e, b) :: ASTExpr.entriesFields b fs
  | e@(.ternaryExpr _ c t f) =>
    (e, b) :: (c.entries b ++ t.entries (c.flagsAfter b) ++
      f.entries (t.flagsAfter (c.flagsAfter b)))
  | e@(.arrayExpr _ es) => (e, b) :: ASTExpr.entriesList b es
  | e@(.arrayOfExpr _ e₁ e₂) => (e, b) :: (e₁.entries b ++ e₂.entries (e₁.flagsAfter b))
  | e@(.indexingExpr _ a i) =>
    (e, b) :: (a.entries { b with lValueGen := false } ++
      i.entries (a.flagsAfter { b with lValueGen := false }))

def ASTExpr.entriesList (b : Flags) : List ASTExpr → List Entry
  | [] => []
  | e :: es => e.entries b ++ ASTExpr.entriesList (e.flagsAfter b) es

def ASTExpr.entriesFields (b : Flags) : List ASTFieldExpr → List Entry
  | [] => []
  | .mk _ _ e :: fs => e.entries b ++ ASTExpr.entriesFields (e.flagsAfter b) fs

end

/-- The flags after the code of an expression whose address is wanted. -/
def ASTExpr.flagsAfterAddress (b : Flags) (e : ASTExpr) : Flags :=
  { e.flagsAfter { b with lValueGen := true } with lValueGen := false }

def ForDomain.flagsAfter (b : Flags) : ForDomain → Flags
  | .iterator e => e.flagsAfter b
  | .range s e none => e.flagsAfter (s.flagsAfter b)
  | .range s e (some i) => i.flagsAfter (e.flagsAfter (s.flagsAfter b))

def ForDomain.entries (b : Flags) : ForDomain → List Entry
  | .iterator e => e.entries b
  | .range s e none => s.entries b ++ e.entries (s.flagsAfter b)
  | .range s e (some i) =>
    s.entries b ++ e.entries (s.flagsAfter b) ++ i.entries (e.flagsAfter (s.flagsAfter b))

mutual

/-- The flags after the code of a statement. -/
def ASTStmt.flagsAfter (b : Flags) : ASTStmt → Flags
  | .assignStmt _ lhs rhs => rhs.flagsAfter (lhs.flagsAfterAddress b)
  | .updateStmt _ a _ => a.flagsAfterAddress b
  | .blockStmt _ stmts => ASTStmt.flagsAfterList b stmts
  | .whileStmt _ c body => body.flagsAfter (c.flagsAfter b)
  | .forStmt _ item d body => body.flagsAfter (d.flagsAfter (item.flagsAfterAddress b))
  | .ifStmt _ c t none => t.flagsAfter (c.flagsAfter b)
  | .ifStmt _ c t (some f) => f.flagsAfter (t.flagsAfter (c.flagsAfter b))
  | .outputStmt _ a | .errorStmt _ a => a.flagsAfter b

def ASTStmt.flagsAfterList (b : Flags) : List ASTStmt → Flags
  | [] => b
  | s :: stmts => ASTStmt.flagsAfterList (s.flagsAfter b) stmts

end

mutual

/-- The expressions that the code of a statement enters, in order, with the flags on entry. -/
def ASTStmt.entries (b : Flags) : ASTStmt → List Entry
  | .assignStmt _ lhs rhs =>
    lhs.entries { b with lValueGen := true } ++ rhs.entries (lhs.flagsAfterAddress b)
  | .updateStmt _ a _ => a.entries { b with lValueGen := true }
  | .blockStmt _ stmts => ASTStmt.entriesList b stmts
  | .whileStmt _ c body => c.entries b ++ body.entries (c.flagsAfter b)
  | .forStmt _ item d body =>
    item.entries { b with lValueGen := true } ++ d.entries (item.flagsAfterAddress b) ++
      body.entries (d.flagsAfter (item.flagsAfterAddress b))
  | .ifStmt _ c t none => c.entries b ++ t.entries (c.flagsAfter b)
  | .ifStmt _ c t (some f) =>
    c.entries b ++ t.entries (c.flagsAfter b) ++ f.entries (t.flagsAfter (c.flagsAfter b))
  | .outputStmt _ a | .errorStmt _ a => a.entries b

def ASTStmt.entriesList (b : Flags) : List ASTStmt → List Entry
  | [] => []
  | s :: stmts => s.entries b ++ ASTStmt.entriesList (s.flagsAfter b) stmts

end

def ASTFunction.flagsAfter (b : Flags) (f : ASTFunction) : Flags :=
  f.ret.arg.flagsAfter (ASTStmt.flagsAfterList b f.body)

def ASTFunction.entries (b : Flags) (f : ASTFunction) : List Entry :=
  ASTStmt.entriesList b f.body ++ f.ret.arg.entries (ASTStmt.flagsAfterList b f.body)

/-- The same for the functions of a program. -/
def functionEntries (b : Flags) : List ASTFunction → List Entry
  | [] => []
  | f :: fs => f.entries b ++ functionEntries (f.flagsAfter b) fs

def functionFlagsAfter (b : Flags) : List ASTFunction → Flags
  | [] => b
  | f :: fs => functionFlagsAfter (f.flagsAfter b) fs

/-! ### What the generation of code enters -/

namespace Llvm

/-- The expressions entered, with the flags on entry. -/
def entered (events : List GenEvent) : List Entry :=
  events.filterMap fun
    | .entered e l a => some (e, ⟨l, a⟩)
    | .addressed _ _ => none

theorem entered_append (es es' : List GenEvent) : entered (es ++ es') = entered es ++ entered es' :=
  List.filterMap_append

/-- The code of an expression is generated to the end, from some state with the flags. -/
def Finishes (x : Entry) : Prop :=
  ∃ s v s', s.flags = x.2 ∧ Run.Returns x.1.generate s v s'

/-- With the flags `b` before, `m` enters the expressions of `l`, or the first of them if it fails. If it
does not fail, the code of each of them was generated to the end, and the flags are `b'` afterwards. -/
def Enters {α : Type} (b : Flags) (m : Generate α) (l : List Entry) (b' : Flags) : Prop :=
  ∀ s, s.flags = b → entered (m s).events <+: l ∧
    ∀ a, (m s).ending = .value a →
      entered (m s).events = l ∧ (m s).state.flags = b' ∧ ∀ x ∈ l, Finishes x

section Rules

variable {α β : Type} {b b' b'' : Flags} {l l' : List Entry}

theorem Enters.bind {m : Generate α} {f : α → Generate β} (hm : Enters b m l b')
    (hf : ∀ a, Enters b' (f a) l' b'') : Enters b (m >>= f) (l ++ l') b'' := by
  intro s hs
  obtain ⟨hpre, hvalue⟩ := hm s hs
  change entered (Run.bind m f s).events <+: _ ∧ ∀ a, (Run.bind m f s).ending = .value a →
    entered (Run.bind m f s).events = _ ∧ (Run.bind m f s).state.flags = _ ∧ _
  unfold Run.bind
  cases hend : (m s).ending with
  | value a =>
    obtain ⟨hl, hflags, hfinish⟩ := hvalue a hend
    obtain ⟨hpre', hvalue'⟩ := hf a (m s).state hflags
    dsimp only
    rw [entered_append, hl]
    refine ⟨(List.prefix_append_right_inj l).2 hpre', fun c hc ↦ ?_⟩
    obtain ⟨hl', hflags', hfinish'⟩ := hvalue' c hc
    rw [hl']
    exact ⟨rfl, hflags', List.forall_mem_append.2 ⟨hfinish, hfinish'⟩⟩
  | failure e => exact ⟨hpre.trans (List.prefix_append _ _), fun _ h ↦ nomatch h⟩
  | timeout => exact ⟨hpre.trans (List.prefix_append _ _), fun _ h ↦ nomatch h⟩

/-- A step that enters nothing. -/
theorem Enters.next {m : Generate α} {f : α → Generate β} (hm : Enters b m [] b')
    (hf : ∀ a, Enters b' (f a) l b'') : Enters b (m >>= f) l b'' :=
  hm.bind hf

/-- A last step that enters nothing. -/
theorem Enters.last {m : Generate α} {f : α → Generate β} (hm : Enters b m l b')
    (hf : ∀ a, Enters b' (f a) [] b'') : Enters b (m >>= f) l b'' := by
  have h := hm.bind hf
  rwa [List.append_nil] at h

theorem enters_pure (a : α) : Enters b (pure a : Generate α) [] b :=
  fun _ hs ↦ ⟨List.prefix_rfl, fun _ _ ↦ ⟨rfl, hs, List.forall_mem_nil _⟩⟩

theorem enters_fail (e : InternalError) : Enters b (Run.fail e : Generate α) l b' :=
  fun _ _ ↦ ⟨ List.nil_prefix, fun _ h ↦ nomatch h⟩

theorem enters_orFail (e : InternalError) (o : Option α) :
    Enters b (Run.orFail e o : Generate α) [] b := by
  cases o with
  | some a => exact enters_pure a
  | none => exact enters_fail e

theorem enters_access {f : CodegenState → α × CodegenState}
    (h : ∀ s, s.flags = b → (f s).2.flags = b') : Enters b (Run.access f : Generate α) [] b' :=
  fun s hs ↦ ⟨List.prefix_rfl, fun _ _ ↦ ⟨rfl, h s hs, List.forall_mem_nil _⟩⟩

theorem enters_modify {f : CodegenState → CodegenState}
    (h : ∀ s, s.flags = b → (f s).flags = b') : Enters b (modify f) [] b' :=
  enters_access h

/-- A step that changes something else. -/
theorem enters_modify_rest {f : CodegenState → CodegenState}
    (h : ∀ s, (f s).flags = s.flags := by exact fun _ ↦ rfl) : Enters b (modify f) [] b :=
  enters_modify fun s hs ↦ (h s).trans hs

/-- What is read of the flags is what they are. -/
theorem enters_get {f : CodegenState → Generate α}
    (h : ∀ s, s.flags = b → Enters b (f s) l b') : Enters b (get >>= f) l b' :=
  fun s hs ↦ h s hs s hs

theorem enters_takeLValue {f : Bool → Generate α}
    (h : Enters { b with lValueGen := false } (f b.lValueGen) l b') :
    Enters b (takeLValue >>= f) l b' := by
  rintro s rfl
  exact h { s with lValueGen := false } rfl

/-- The expression itself, and then what its code enters. -/
theorem enters_node {e : ASTExpr} {code : Generate Operand}
    (he : e.generate = get >>= fun s ↦
      Run.emit (.entered e s.lValueGen s.allocFlag) >>= fun _ ↦ code)
    (h : Enters b code l b') : Enters b e.generate ((e, b) :: l) b' := by
  rintro s rfl
  obtain ⟨hpre, hvalue⟩ := h s rfl
  have hrun : e.generate s = ⟨(code s).ending, (code s).state,
      .entered e s.lValueGen s.allocFlag :: (code s).events⟩ := by
    rw [he]
    rfl
  rw [hrun]
  refine ⟨List.prefix_cons_inj _ |>.2 hpre, fun a ha ↦ ?_⟩
  obtain ⟨hl, hflags, hfinish⟩ := hvalue a ha
  refine ⟨congrArg ((e, s.flags) :: ·) hl, hflags, List.forall_mem_cons.2 ⟨?_, hfinish⟩⟩
  exact ⟨s, a, (code s).state, rfl, by rw [hrun]; exact ha, by rw [hrun]⟩

/-! ### Steps that enter nothing -/

theorem enters_emit (i : Instruction) : Enters b (emit i) [] b :=
  enters_access fun _ hs ↦ hs

theorem enters_emitUnit (i : Instruction) : Enters b (emitUnit i) [] b :=
  enters_access fun _ hs ↦ hs

theorem enters_createBlock : Enters b createBlock [] b :=
  enters_access fun _ hs ↦ hs

theorem enters_setInsertPoint (n : IR.Label) : Enters b (setInsertPoint n) [] b :=
  enters_access fun _ hs ↦ hs

theorem enters_getInsertBlock : Enters b getInsertBlock [] b :=
  enters_access fun _ hs ↦ hs

theorem enters_createEntryBlockAlloca (o : Origin) : Enters b (createEntryBlockAlloca o) [] b :=
  enters_access fun _ hs ↦ hs

theorem enters_createFunction (name : String) (args : List String) (k : Kind) :
    Enters b (createFunction name args k) [] b :=
  enters_access fun _ hs ↦ hs

theorem enters_bindName (name : String) (a : Alloca) : Enters b (bindName name a) [] b :=
  enters_access fun _ hs ↦ hs

theorem enters_intrinsic (i : Intrinsic) : Enters b (intrinsic i) [] b := by
  unfold intrinsic
  refine enters_get fun s _ ↦ ?_
  cases s.intrinsics i with
  | some f => exact enters_pure f
  | none =>
    refine (enters_createFunction _ _ _).next fun f ↦ ?_
    exact (enters_modify fun _ hs ↦ hs).next fun _ ↦ enters_pure f

theorem enters_callNop : Enters b callNop [] b :=
  enters_get fun _ _ ↦ (enters_orFail _ _).next fun _ ↦ enters_emitUnit _

theorem enters_callCalloc (items size : Operand) : Enters b (callCalloc items size) [] b :=
  enters_get fun _ _ ↦ (enters_orFail _ _).next fun _ ↦ enters_emit _

theorem enters_branchOn (condVal : Operand) (n n' : IR.Label) :
    Enters b (branchOn condVal n n') [] b :=
  (enters_emit _).next fun _ ↦ enters_emitUnit _

theorem enters_fieldSlot (field : String) : Enters b (fieldSlot field) [] b := by
  refine enters_access fun s hs ↦ ?_
  cases s.fieldIndex field <;> exact hs

theorem enters_setLValueGen (c : Bool) :
    Enters b (modify fun s ↦ { s with lValueGen := c }) [] { b with lValueGen := c } :=
  enters_modify fun _ hs ↦ congrArg (fun b ↦ { b with lValueGen := c }) hs

theorem enters_setAllocFlag (c : Bool) :
    Enters b (modify fun s ↦ { s with allocFlag := c }) [] { b with allocFlag := c } :=
  enters_modify fun _ hs ↦ congrArg (fun b ↦ { b with allocFlag := c }) hs

/-- The code of an expression whose address is wanted. -/
theorem enters_address {e : ASTExpr} {code : Generate Operand}
    (h : Enters { b with lValueGen := true } code l b') :
    Enters b (address e code) l { b' with lValueGen := false } := by
  unfold address
  refine (enters_setLValueGen true).next fun _ ↦ h.last fun v ↦ ?_
  refine (enters_setLValueGen false).next fun _ ↦ Enters.next ?_ fun _ ↦ enters_pure v
  exact fun s hs ↦ ⟨List.prefix_rfl, fun _ _ ↦ ⟨rfl, hs, List.forall_mem_nil _⟩⟩

end Rules

end Llvm

section Generate

variable {b : Flags}

theorem BinaryOp.enters_generate (op : BinaryOp) (l r : Operand) :
    Enters b (op.generate l r) [] b := by
  have hcompare : ∀ p : IR.Predicate,
      Enters b (do let cmp ← emit (.icmp p l r); emit (.zext cmp)) [] b := fun p ↦
    (enters_emit _).next fun _ ↦ enters_emit _
  cases op
  case gt | ge | lt | le | eq | ne => exact hcompare _
  all_goals exact enters_emit _

theorem enters_generateVariable (x : String) : Enters b (generateVariable x) [] b := by
  unfold generateVariable
  refine enters_get fun s _ ↦ ?_
  split
  · split_ifs
    · exact enters_pure _
    · exact enters_emit _
  · split
    · exact enters_pure _
    · exact enters_fail _

theorem enters_generateElement (isLValue : Bool) (arrayPtr length indexVal : Operand) :
    Enters b (generateElement isLValue arrayPtr length indexVal) [] b := by
  unfold generateElement
  refine (enters_emit _).next fun _ ↦ (enters_emit _).next fun _ ↦ (enters_emit _).next fun _ ↦ ?_
  refine enters_createBlock.next fun _ ↦ enters_createBlock.next fun _ ↦ ?_
  refine enters_createBlock.next fun _ ↦ (enters_emitUnit _).next fun _ ↦ ?_
  refine (enters_setInsertPoint _).next fun _ ↦ (enters_intrinsic _).next fun _ ↦ ?_
  refine (enters_emitUnit _).next fun _ ↦ (enters_emitUnit _).next fun _ ↦ ?_
  refine (enters_setInsertPoint _).next fun _ ↦ (enters_emit _).next fun _ ↦ ?_
  refine (enters_emit _).next fun _ ↦ (enters_emitUnit _).next fun _ ↦ ?_
  refine (enters_setInsertPoint _).next fun _ ↦ ?_
  cases isLValue <;> exact enters_emit _

mutual

/-- The code of an expression enters what `entries` lists. -/
theorem ASTExpr.enters_generate : ∀ (e : ASTExpr) (b : Flags),
    Enters b e.generate (e.entries b) (e.flagsAfter b)
  | .numberExpr _ _, b => enters_node (by rw [ASTExpr.generate]) (enters_pure _)
  | .boolExpr _ _, b => enters_node (by rw [ASTExpr.generate]) (enters_pure _)
  | .inputExpr _, b => enters_node (by rw [ASTExpr.generate])
      ((enters_intrinsic _).next fun _ ↦ enters_emit _)
  | .nullExpr _, b => enters_node (by rw [ASTExpr.generate]) (enters_emit _)
  | .variableExpr _ x, b => enters_node (by rw [ASTExpr.generate]) (enters_generateVariable x)
  | .binaryExpr _ op l r, b => by
    refine enters_node (by rw [ASTExpr.generate]) ?_
    refine (l.enters_generate b).bind fun _ ↦ (r.enters_generate _).last fun _ ↦ ?_
    exact op.enters_generate _ _
  | .notExpr _ a, b => enters_node (by rw [ASTExpr.generate])
      ((a.enters_generate b).last fun _ ↦ enters_emit _)
  | .negExpr _ a, b => enters_node (by rw [ASTExpr.generate])
      ((a.enters_generate b).last fun _ ↦ enters_emit _)
  | .funAppExpr _ f as, b => by
    refine enters_node (by rw [ASTExpr.generate]) ?_
    refine (f.enters_generate b).bind fun _ ↦ (enters_emit _).next fun _ ↦ ?_
    refine (enters_emit _).next fun _ ↦ (ASTExpr.enters_generateList as _).last fun _ ↦ ?_
    exact enters_emit _
  | .allocExpr _ a, b => by
    refine enters_node (by rw [ASTExpr.generate]) ?_
    refine (enters_setAllocFlag true).next fun _ ↦ (a.enters_generate _).last fun _ ↦ ?_
    refine (enters_setAllocFlag false).next fun _ ↦ (enters_callCalloc _ _).next fun _ ↦ ?_
    exact (enters_emitUnit _).next fun _ ↦ enters_emit _
  | .refExpr _ a, b => by
    refine enters_node (by rw [ASTExpr.generate]) ?_
    exact (enters_address (a.enters_generate _)).last fun _ ↦ enters_emit _
  | .deRefExpr _ a, b => by
    refine enters_node (by rw [ASTExpr.generate]) ?_
    refine enters_takeLValue ((a.enters_generate _).last fun _ ↦ (enters_emit _).next fun _ ↦ ?_)
    cases b.lValueGen
    · exact enters_emit _
    · exact enters_pure _
  | .recordExpr _ fs, b => by
    refine enters_node (by rw [ASTExpr.generate]) (enters_get fun s _ ↦ ?_)
    split_ifs
    · refine (enters_emit _).next fun _ ↦ (enters_callCalloc _ _).next fun _ ↦ ?_
      refine (enters_emitUnit _).next fun _ ↦ (enters_emit _).next fun _ ↦ ?_
      exact (ASTExpr.enters_generateFields fs _ b).last fun _ ↦ enters_emit _
    · refine (enters_emit _).next fun _ ↦ ?_
      exact (ASTExpr.enters_generateFields fs _ b).last fun _ ↦ enters_emit _
  | .accessExpr _ r _, b => by
    refine enters_node (by rw [ASTExpr.generate]) ?_
    refine enters_takeLValue (enters_get fun _ _ ↦ (enters_orFail _ _).next fun _ ↦ ?_)
    refine (r.enters_generate _).last fun _ ↦ (enters_emit _).next fun _ ↦ ?_
    refine (enters_emit _).next fun _ ↦ ?_
    cases b.lValueGen
    · exact enters_emit _
    · exact enters_pure _
  | .ternaryExpr _ c t f, b => by
    refine enters_node (by rw [ASTExpr.generate]) ?_
    rw [List.append_assoc]
    refine (c.enters_generate b).bind fun _ ↦ enters_createBlock.next fun _ ↦ ?_
    refine enters_createBlock.next fun _ ↦ enters_createBlock.next fun _ ↦ ?_
    refine (enters_branchOn _ _ _).next fun _ ↦ (enters_setInsertPoint _).next fun _ ↦ ?_
    refine (t.enters_generate _).bind fun _ ↦ (enters_emitUnit _).next fun _ ↦ ?_
    refine enters_getInsertBlock.next fun _ ↦ (enters_setInsertPoint _).next fun _ ↦ ?_
    refine (f.enters_generate _).last fun _ ↦ (enters_emitUnit _).next fun _ ↦ ?_
    refine enters_getInsertBlock.next fun _ ↦ (enters_setInsertPoint _).next fun _ ↦ ?_
    exact enters_emit _
  | .arrayExpr _ es, b => by
    refine enters_node (by rw [ASTExpr.generate]) ?_
    refine (enters_callCalloc _ _).next fun _ ↦ (enters_emitUnit _).next fun _ ↦ ?_
    exact (ASTExpr.enters_generateElements es _ 0 b).last fun _ ↦ enters_emit _
  | .arrayOfExpr _ e₁ e₂, b => by
    refine enters_node (by rw [ASTExpr.generate]) ?_
    refine (e₁.enters_generate b).bind fun _ ↦ (enters_emit _).next fun _ ↦ ?_
    refine (enters_callCalloc _ _).next fun _ ↦ (enters_emitUnit _).next fun _ ↦ ?_
    refine (enters_emit _).next fun _ ↦ (enters_emitUnit _).next fun _ ↦ ?_
    refine enters_createBlock.next fun _ ↦ enters_createBlock.next fun _ ↦ ?_
    refine enters_createBlock.next fun _ ↦ (enters_emitUnit _).next fun _ ↦ ?_
    refine (enters_setInsertPoint _).next fun _ ↦ (enters_emit _).next fun _ ↦ ?_
    refine (enters_emit _).next fun _ ↦ (enters_emitUnit _).next fun _ ↦ ?_
    refine (enters_setInsertPoint _).next fun _ ↦ (e₂.enters_generate _).last fun _ ↦ ?_
    refine (enters_emit _).next fun _ ↦ (enters_emitUnit _).next fun _ ↦ ?_
    refine (enters_emit _).next fun _ ↦ (enters_emitUnit _).next fun _ ↦ ?_
    refine (enters_emitUnit _).next fun _ ↦ (enters_setInsertPoint _).next fun _ ↦ ?_
    exact enters_emit _
  | .indexingExpr _ a i, b => by
    refine enters_node (by rw [ASTExpr.generate]) (enters_takeLValue ?_)
    refine (a.enters_generate _).bind fun _ ↦ (enters_emit _).next fun _ ↦ ?_
    refine (enters_emit _).next fun _ ↦ (i.enters_generate _).last fun _ ↦ ?_
    exact (enters_setLValueGen _).next fun _ ↦ enters_generateElement _ _ _ _
  | .arrayLenExpr _ a, b => by
    refine enters_node (by rw [ASTExpr.generate]) ?_
    exact (a.enters_generate b).last fun _ ↦ (enters_emit _).next fun _ ↦ enters_emit _

theorem ASTExpr.enters_generateList : ∀ (es : List ASTExpr) (b : Flags),
    Enters b (ASTExpr.generateList es) (ASTExpr.entriesList b es) (ASTExpr.flagsAfterList b es)
  | [], _ => enters_pure _
  | e :: es, b => by
    unfold ASTExpr.generateList
    refine (e.enters_generate b).bind fun _ ↦ (ASTExpr.enters_generateList es _).last fun _ ↦ ?_
    exact enters_pure _

theorem ASTExpr.enters_generateElements : ∀ (es : List ASTExpr) (ptr : Operand) (i : ℕ) (b : Flags),
    Enters b (ASTExpr.generateElements ptr i es) (ASTExpr.entriesList b es)
      (ASTExpr.flagsAfterList b es)
  | [], _, _, _ => enters_pure _
  | e :: es, ptr, i, b => by
    unfold ASTExpr.generateElements
    refine (e.enters_generate b).bind fun _ ↦ (enters_emit _).next fun _ ↦ ?_
    exact (enters_emitUnit _).next fun _ ↦ ASTExpr.enters_generateElements es ptr (i + 1) _

theorem ASTExpr.enters_generateFields : ∀ (fs : List ASTFieldExpr) (record : Operand) (b : Flags),
    Enters b (ASTExpr.generateFields record fs) (ASTExpr.entriesFields b fs)
      (ASTExpr.flagsAfterFields b fs)
  | [], _, _ => enters_pure _
  | .mk _ field e :: fs, record, b => by
    unfold ASTExpr.generateFields
    refine (enters_fieldSlot field).next fun _ ↦ (enters_emit _).next fun _ ↦ ?_
    refine (e.enters_generate b).bind fun _ ↦ (enters_emitUnit _).next fun _ ↦ ?_
    exact ASTExpr.enters_generateFields fs record _

end

theorem enters_generateRange (s e : ASTExpr) (i : Option ASTExpr) (b : Flags) :
    Enters b (generateRange s e i) (ForDomain.entries b (.range s e i))
      (ForDomain.flagsAfter b (.range s e i)) := by
  unfold generateRange
  cases i with
  | none => exact (s.enters_generate b).bind fun _ ↦ (e.enters_generate _).last fun _ ↦ enters_pure _
  | some i =>
    rw [ForDomain.entries, List.append_assoc]
    refine (s.enters_generate b).bind fun _ ↦ (e.enters_generate _).bind fun _ ↦ ?_
    exact (i.enters_generate _).last fun _ ↦ enters_pure _

theorem ASTExpr.enters_generateAddress (e : ASTExpr) (b : Flags) :
    Enters b (address e e.generate) (e.entries { b with lValueGen := true })
      (e.flagsAfterAddress b) :=
  enters_address (e.enters_generate _)

mutual

/-- The code of a statement enters what `entries` lists. -/
theorem ASTStmt.enters_generate : ∀ (s : ASTStmt) (b : Flags),
    Enters b s.generate (s.entries b) (s.flagsAfter b)
  | .assignStmt _ lhs rhs, b => by
    unfold ASTStmt.generate
    refine (lhs.enters_generateAddress b).bind fun _ ↦ (rhs.enters_generate _).last fun _ ↦ ?_
    exact enters_emitUnit _
  | .updateStmt _ a _, b => by
    unfold ASTStmt.generate
    refine (a.enters_generateAddress b).last fun _ ↦ (enters_emit _).next fun _ ↦ ?_
    exact (enters_emit _).next fun _ ↦ enters_emitUnit _
  | .blockStmt _ [], b => by
    unfold ASTStmt.generate
    exact enters_callNop
  | .blockStmt _ (s :: stmts), b => by
    unfold ASTStmt.generate
    exact (s.enters_generate b).bind fun _ ↦ ASTStmt.enters_generateList stmts _
  | .whileStmt _ c body, b => by
    unfold ASTStmt.generate
    refine enters_createBlock.next fun _ ↦ enters_createBlock.next fun _ ↦ ?_
    refine enters_createBlock.next fun _ ↦ (enters_emitUnit _).next fun _ ↦ ?_
    refine (enters_setInsertPoint _).next fun _ ↦ (c.enters_generate b).bind fun _ ↦ ?_
    refine (enters_branchOn _ _ _).next fun _ ↦ (enters_setInsertPoint _).next fun _ ↦ ?_
    refine (body.enters_generate _).last fun _ ↦ (enters_emitUnit _).next fun _ ↦ ?_
    exact (enters_setInsertPoint _).next fun _ ↦ enters_callNop
  | .forStmt _ item (.range s e i) body, b => by
    unfold ASTStmt.generate ASTStmt.entries
    rw [List.append_assoc]
    refine enters_createBlock.next fun _ ↦ enters_createBlock.next fun _ ↦ ?_
    refine enters_createBlock.next fun _ ↦ (item.enters_generateAddress b).bind fun _ ↦ ?_
    refine (enters_generateRange s e i _).bind fun _ ↦ (enters_emitUnit _).next fun _ ↦ ?_
    refine (enters_emitUnit _).next fun _ ↦ (enters_setInsertPoint _).next fun _ ↦ ?_
    refine (enters_emit _).next fun _ ↦ (enters_emit _).next fun _ ↦ ?_
    refine (enters_emitUnit _).next fun _ ↦ (enters_setInsertPoint _).next fun _ ↦ ?_
    refine (body.enters_generate _).last fun _ ↦ (enters_emit _).next fun _ ↦ ?_
    refine (enters_emit _).next fun _ ↦ (enters_emitUnit _).next fun _ ↦ ?_
    refine (enters_emitUnit _).next fun _ ↦ (enters_setInsertPoint _).next fun _ ↦ ?_
    exact enters_callNop
  | .forStmt _ item (.iterator e) body, b => by
    unfold ASTStmt.generate ASTStmt.entries
    rw [List.append_assoc]
    refine enters_createBlock.next fun _ ↦ enters_createBlock.next fun _ ↦ ?_
    refine enters_createBlock.next fun _ ↦ (item.enters_generateAddress b).bind fun _ ↦ ?_
    refine (e.enters_generate _).bind fun _ ↦ (enters_emit _).next fun _ ↦ ?_
    refine (enters_emitUnit _).next fun _ ↦ (enters_emit _).next fun _ ↦ ?_
    refine (enters_emit _).next fun _ ↦ (enters_emitUnit _).next fun _ ↦ ?_
    refine (enters_setInsertPoint _).next fun _ ↦ (enters_emit _).next fun _ ↦ ?_
    refine (enters_emit _).next fun _ ↦ (enters_emitUnit _).next fun _ ↦ ?_
    refine (enters_setInsertPoint _).next fun _ ↦ (enters_emit _).next fun _ ↦ ?_
    refine (enters_emit _).next fun _ ↦ (enters_emit _).next fun _ ↦ ?_
    refine (enters_emitUnit _).next fun _ ↦ (body.enters_generate _).last fun _ ↦ ?_
    refine (enters_emit _).next fun _ ↦ (enters_emitUnit _).next fun _ ↦ ?_
    refine (enters_emitUnit _).next fun _ ↦ (enters_setInsertPoint _).next fun _ ↦ ?_
    exact enters_callNop
  | .ifStmt _ c t none, b => by
    unfold ASTStmt.generate ASTStmt.generateElse
    refine (c.enters_generate b).bind fun _ ↦ enters_createBlock.next fun _ ↦ ?_
    refine enters_createBlock.next fun _ ↦ enters_createBlock.next fun _ ↦ ?_
    refine (enters_branchOn _ _ _).next fun _ ↦ (enters_setInsertPoint _).next fun _ ↦ ?_
    refine (t.enters_generate _).last fun _ ↦ (enters_emitUnit _).next fun _ ↦ ?_
    refine (enters_setInsertPoint _).next fun _ ↦ enters_callNop.next fun _ ↦ ?_
    exact (enters_emitUnit _).next fun _ ↦ (enters_setInsertPoint _).next fun _ ↦ enters_callNop
  | .ifStmt _ c t (some f), b => by
    unfold ASTStmt.generate ASTStmt.generateElse ASTStmt.entries
    rw [List.append_assoc]
    refine (c.enters_generate b).bind fun _ ↦ enters_createBlock.next fun _ ↦ ?_
    refine enters_createBlock.next fun _ ↦ enters_createBlock.next fun _ ↦ ?_
    refine (enters_branchOn _ _ _).next fun _ ↦ (enters_setInsertPoint _).next fun _ ↦ ?_
    refine (t.enters_generate _).bind fun _ ↦ (enters_emitUnit _).next fun _ ↦ ?_
    refine (enters_setInsertPoint _).next fun _ ↦ (f.enters_generate _).last fun _ ↦ ?_
    exact (enters_emitUnit _).next fun _ ↦ (enters_setInsertPoint _).next fun _ ↦ enters_callNop
  | .outputStmt _ a, b => by
    unfold ASTStmt.generate
    exact (enters_intrinsic _).next fun _ ↦ (a.enters_generate b).last fun _ ↦ enters_emitUnit _
  | .errorStmt _ a, b => by
    unfold ASTStmt.generate
    exact (enters_intrinsic _).next fun _ ↦ (a.enters_generate b).last fun _ ↦ enters_emitUnit _

theorem ASTStmt.enters_generateList : ∀ (stmts : List ASTStmt) (b : Flags),
    Enters b (ASTStmt.generateList stmts) (ASTStmt.entriesList b stmts)
      (ASTStmt.flagsAfterList b stmts)
  | [], _ => enters_pure _
  | s :: stmts, b => by
    unfold ASTStmt.generateList
    exact (s.enters_generate b).bind fun _ ↦ ASTStmt.enters_generateList stmts _

end

/-! ### Functions and programs -/

/-- A loop over steps that enter nothing. -/
theorem enters_forM {α : Type} {f : α → Generate Unit} (h : ∀ a, Enters b (f a) [] b) :
    ∀ as : List α, Enters b (as.forM f) [] b
  | [] => enters_pure _
  | a :: as => (h a).next fun _ ↦ enters_forM h as

theorem enters_mapM {α β : Type} {f : α → Generate β} (h : ∀ a, Enters b (f a) [] b) :
    ∀ as : List α, Enters b (as.mapM f) [] b
  | [] => by
    rw [List.mapM_nil]
    exact enters_pure _
  | a :: as => by
    rw [List.mapM_cons]
    exact (h a).next fun _ ↦ (enters_mapM h as).next fun _ ↦ enters_pure _

theorem enters_getFunction (name : String) : Enters b (Sipc.getFunction name) [] b := by
  unfold Sipc.getFunction
  refine enters_get fun s _ ↦ ?_
  dsimp only
  split_ifs
  · split
    · exact enters_pure _
    · exact (enters_modify_rest).next fun _ ↦ enters_createFunction _ _ _
  · split
    · exact enters_pure _
    · exact enters_createFunction _ _ _

theorem ASTDeclStmt.enters_generate (s : ASTDeclStmt) : Enters b s.generate [] b := by
  unfold ASTDeclStmt.generate
  refine (enters_forM (fun d ↦ ?_) s.vars).next fun _ ↦ ?_
  · unfold ASTDeclNode.generateLocal
    refine (enters_createEntryBlockAlloca _).next fun a ↦ (enters_emitUnit _).next fun _ ↦ ?_
    exact enters_bindName _ _
  · split_ifs
    · exact enters_fail _
    · exact enters_pure _

theorem ASTFunction.enters_generatePrologue (f : ASTFunction) :
    Enters b f.generatePrologue [] b := by
  unfold ASTFunction.generatePrologue
  refine (enters_getFunction _).next fun F ↦ (enters_modify_rest).next fun _ ↦ ?_
  refine enters_createBlock.next fun _ ↦ (enters_setInsertPoint _).next fun _ ↦ ?_
  refine (enters_modify_rest).next fun _ ↦ ?_
  have hnames : ∀ F, Enters b (parameterNames f F) [] b := fun F ↦ by
    unfold parameterNames
    refine enters_get fun s _ ↦ ?_
    split_ifs <;> exact enters_pure _
  refine (hnames _).next fun names ↦ ?_
  · refine (enters_forM (fun a ↦ ?_) _).next fun _ ↦ enters_forM (fun s ↦ s.enters_generate) _
    dsimp only
    split_ifs
    · unfold generateMainArg
      refine (enters_createEntryBlockAlloca _).next fun _ ↦ (enters_emit _).next fun _ ↦ ?_
      exact (enters_emit _).next fun _ ↦ (enters_emitUnit _).next fun _ ↦ enters_bindName _ _
    · unfold generateArg
      refine (enters_createEntryBlockAlloca _).next fun _ ↦ (enters_emitUnit _).next fun _ ↦ ?_
      exact enters_bindName _ _

theorem ASTFunction.enters_generate (f : ASTFunction) (b : Flags) :
    Enters b f.generate (f.entries b) (f.flagsAfter b) := by
  unfold ASTFunction.generate
  refine f.enters_generatePrologue.next fun _ ↦ ?_
  refine (ASTStmt.enters_generateList f.body b).bind fun _ ↦ ?_
  exact (f.ret.arg.enters_generate _).last fun _ ↦ enters_emitUnit _

theorem flags_addFunctions (s : CodegenState) (fs : List ASTFunction) :
    (s.addFunctions fs).flags = s.flags := by
  unfold CodegenState.addFunctions
  generalize fs.zipIdx = l
  induction l generalizing s with
  | nil => rfl
  | cons a l ih => exact (ih _).trans rfl

theorem flags_addFields (s : CodegenState) (fields : List String) :
    (s.addFields fields).flags = s.flags := by
  unfold CodegenState.addFields
  generalize fields.zipIdx = l
  induction l generalizing s with
  | nil => rfl
  | cons a l ih => exact (ih _).trans rfl

theorem enters_ensureMain : Enters b ensureMain [] b := by
  unfold ensureMain
  refine enters_get fun s _ ↦ ?_
  split_ifs
  · unfold generateUndefinedMain
    refine (enters_createFunction _ _ _).next fun _ ↦ (enters_modify_rest).next fun _ ↦ ?_
    refine enters_createBlock.next fun _ ↦ (enters_setInsertPoint _).next fun _ ↦ ?_
    refine (enters_createFunction _ _ _).next fun _ ↦ (enters_emitUnit _).next fun _ ↦ ?_
    exact enters_emitUnit _
  · exact enters_pure _

theorem ASTProgram.enters_declareFunctions (p : ASTProgram) (fields : List String) :
    Enters b (p.declareFunctions fields) [] b := by
  unfold ASTProgram.declareFunctions
  refine (enters_modify_rest).next fun _ ↦ (enters_createFunction _ _ _).next fun _ ↦ ?_
  refine (enters_modify_rest).next fun _ ↦ ?_
  refine Enters.next (enters_modify_rest fun s ↦ flags_addFunctions s p.functions) fun _ ↦ ?_
  refine (enters_mapM (fun f : ASTFunction ↦ enters_getFunction f.name) _).next fun _ ↦ ?_
  refine (enters_modify_rest).next fun _ ↦ enters_ensureMain.next fun _ ↦ ?_
  refine (enters_modify_rest).next fun _ ↦ (enters_createFunction _ _ _).next fun _ ↦ ?_
  refine (enters_modify_rest).next fun _ ↦ ?_
  exact enters_modify_rest fun s ↦ flags_addFields s fields

theorem enters_functions : ∀ (fs : List ASTFunction) (b : Flags),
    Enters b (fs.forM ASTFunction.generate) (functionEntries b fs) (functionFlagsAfter b fs)
  | [], _ => enters_pure _
  | f :: fs, b => (f.enters_generate b).bind fun _ ↦ enters_functions fs _

/-- The generation of code for a program enters what `entries` lists of its functions. -/
theorem ASTProgram.enters_codegen (p : ASTProgram) (fields : List String) (b : Flags) :
    Enters b (p.codegen fields) (functionEntries b p.functions)
      (functionFlagsAfter b p.functions) := by
  unfold ASTProgram.codegen
  refine (p.enters_declareFunctions fields).next fun _ ↦ ?_
  exact (enters_functions p.functions b).last fun _ ↦ enters_get fun _ _ ↦ enters_pure _

end Generate

/-! ### What the flags are for -/

/-- The flags for the sub-expressions that no address is wanted of. -/
def Llvm.Flags.inner (b : Flags) : Flags :=
  { b with lValueGen := false }

mutual

/-- The sub-expressions in order, with the flags they should be entered with: an address is wanted of the
operand of `&` only, and inside the initialiser of an `alloc` records are allocated. -/
def ASTExpr.scoped (b : Flags) : ASTExpr → List Entry
  | e@(.numberExpr _ _) => [(e, b)]
  | e@(.boolExpr _ _) => [(e, b)]
  | e@(.inputExpr _) => [(e, b)]
  | e@(.nullExpr _) => [(e, b)]
  | e@(.variableExpr _ _) => [(e, b)]
  | e@(.binaryExpr _ _ l r) => (e, b) :: (l.scoped b.inner ++ r.scoped b.inner)
  | e@(.notExpr _ a) => (e, b) :: a.scoped b.inner
  | e@(.negExpr _ a) => (e, b) :: a.scoped b.inner
  | e@(.arrayLenExpr _ a) => (e, b) :: a.scoped b.inner
  | e@(.funAppExpr _ f as) => (e, b) :: (f.scoped b.inner ++ ASTExpr.scopedList b.inner as)
  | e@(.allocExpr _ a) => (e, b) :: a.scoped { lValueGen := false, allocFlag := true }
  | e@(.refExpr _ a) => (e, b) :: a.scoped { b with lValueGen := true }
  | e@(.deRefExpr _ a) => (e, b) :: a.scoped b.inner
  | e@(.accessExpr _ a _) => (e, b) :: a.scoped b.inner
  | e@(.recordExpr _ fs) => (e, b) :: ASTExpr.scopedFields b.inner fs
  | e@(.ternaryExpr _ c t f) =>
    (e, b) :: (c.scoped b.inner ++ t.scoped b.inner ++ f.scoped b.inner)
  | e@(.arrayExpr _ es) => (e, b) :: ASTExpr.scopedList b.inner es
  | e@(.arrayOfExpr _ e₁ e₂) => (e, b) :: (e₁.scoped b.inner ++ e₂.scoped b.inner)
  | e@(.indexingExpr _ a i) => (e, b) :: (a.scoped b.inner ++ i.scoped b.inner)

def ASTExpr.scopedList (b : Flags) : List ASTExpr → List Entry
  | [] => []
  | e :: es => e.scoped b ++ ASTExpr.scopedList b es

def ASTExpr.scopedFields (b : Flags) : List ASTFieldExpr → List Entry
  | [] => []
  | .mk _ _ e :: fs => e.scoped b ++ ASTExpr.scopedFields b fs

end

/-- An expression of a statement whose value is wanted. -/
def ASTExpr.scopedValue (e : ASTExpr) : List Entry :=
  e.scoped { lValueGen := false, allocFlag := false }

/-- An expression of a statement whose address is wanted. -/
def ASTExpr.scopedAddress (e : ASTExpr) : List Entry :=
  e.scoped { lValueGen := true, allocFlag := false }

def ForDomain.scoped : ForDomain → List Entry
  | .iterator e => e.scopedValue
  | .range s e none => s.scopedValue ++ e.scopedValue
  | .range s e (some i) => s.scopedValue ++ e.scopedValue ++ i.scopedValue

mutual

/-- The expressions of a statement in order, with the flags they should be entered with: an address is
wanted of a left-hand side, of an updated expression and of the item of a loop. -/
def ASTStmt.scoped : ASTStmt → List Entry
  | .assignStmt _ lhs rhs => lhs.scopedAddress ++ rhs.scopedValue
  | .updateStmt _ a _ => a.scopedAddress
  | .blockStmt _ stmts => ASTStmt.scopedList stmts
  | .whileStmt _ c body => c.scopedValue ++ body.scoped
  | .forStmt _ item d body => item.scopedAddress ++ d.scoped ++ body.scoped
  | .ifStmt _ c t none => c.scopedValue ++ t.scoped
  | .ifStmt _ c t (some f) => c.scopedValue ++ t.scoped ++ f.scoped
  | .outputStmt _ a | .errorStmt _ a => a.scopedValue

def ASTStmt.scopedList : List ASTStmt → List Entry
  | [] => []
  | s :: stmts => s.scoped ++ ASTStmt.scopedList stmts

end

def ASTFunction.scoped (f : ASTFunction) : List Entry :=
  ASTStmt.scopedList f.body ++ f.ret.arg.scopedValue

/-- All expressions of a program, with the flags they should be entered with. -/
def ASTProgram.scoped (p : ASTProgram) : List Entry :=
  p.functions.flatMap ASTFunction.scoped

end Sipc
