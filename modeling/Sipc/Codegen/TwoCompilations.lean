import Sipc.Codegen.LValues
import Sipc.Codegen.NameResolution
import Sipc.Codegen.Renumbering
import Sipc.Library.PairedRuns

/-!
# Compiling in two states

The same code is generated from a state and from another one that has the same tables where the code
looks, and the same module but for the numbers (`Ahead`). What the first generation makes, the second
makes too, with its own numbers (`ASTProgram.follows_codegen`). On the way it is recorded what the first
generation calls: every runtime function that a node of the program calls for (`ASTNode.runtime`), and
no other.

In `CodeUses` stands what the code may look up. If `total` holds, the generation is shown to end with a
module, and if `fresh` holds, nothing was compiled before.
-/

set_option autoImplicit false
set_option relaxedAutoImplicit false

namespace Sipc

open Library

namespace Llvm

/-! ### Runtime functions -/

/-- The functions of the runtime library that the generated code calls. -/
inductive RuntimeFunction
  | calloc
  | undefinedMain
  | intrinsic (i : Intrinsic)
  deriving DecidableEq, Repr

def RuntimeFunction.symbol : RuntimeFunction → String
  | .calloc => "calloc"
  | .undefinedMain => "_tip_main_undefined"
  | .intrinsic i => i.symbol

/-- The code generator refers to the runtime function by this pointer. It keeps none to
`_tip_main_undefined`, which is what it calls, beside the nop, without a result. -/
def CodegenState.Refers (s : CodegenState) : RuntimeFunction → FunctionRef → Prop
  | .calloc, r => s.calloc = some r
  | .undefinedMain, r => r.returns = .void ∧ s.nop ≠ some r
  | .intrinsic i, r => s.intrinsics i = some r

/-- There is a call of the runtime function in the module. -/
def CodegenState.CallsRuntime (s : CodegenState) (x : RuntimeFunction) : Prop :=
  ∃ r args, s.Refers x r ∧ .call (.function r) args ∈ s.module.instructions

end Llvm

open Llvm

/-- The runtime function that the code of a node calls. -/
def ASTNode.runtime : ASTNode → Option RuntimeFunction
  | .expr (.allocExpr _ _) | .expr (.arrayExpr _ _) | .expr (.arrayOfExpr _ _ _) => some .calloc
  | .expr (.inputExpr _) => some (.intrinsic .input)
  | .expr (.indexingExpr _ _ _) | .stmt (.errorStmt _ _) => some (.intrinsic .error)
  | .stmt (.outputStmt _ _) => some (.intrinsic .output)
  | _ => none

/-- The variable that a node is. -/
def ASTNode.variable' : ASTNode → Option String
  | .expr (.variableExpr _ name) => some name
  | _ => none

/-- One of the nodes calls the runtime function. -/
def CallsIn (events : List VisitEvent) (x : RuntimeFunction) : Prop :=
  ∃ n, .endVisit n ∈ events ∧ n.runtime = some x

instance (events : List VisitEvent) (x : RuntimeFunction) : Decidable (CallsIn events x) :=
  decidable_of_iff (∃ e ∈ events, (match e with
    | .visit _ => none
    | .endVisit n => n.runtime) = some x) <| by
    constructor
    · rintro ⟨_ | n, he, hx⟩
      · cases hx
      · exact ⟨n, he, hx⟩
    · rintro ⟨n, hn, hx⟩
      exact ⟨.endVisit n, hn, hx⟩

@[simp] theorem callsIn_append {es es' : List VisitEvent} {x : RuntimeFunction} :
    CallsIn (es ++ es') x ↔ CallsIn es x ∨ CallsIn es' x := by
  simp only [CallsIn, List.mem_append, or_and_right, exists_or]

@[simp] theorem callsIn_visiting {n : ASTNode} {es : List VisitEvent} {x : RuntimeFunction} :
    CallsIn (visiting n es) x ↔ n.runtime = some x ∨ CallsIn es x := by
  simp [CallsIn, visiting, or_and_right, exists_or, or_comm]

@[simp] theorem not_callsIn_nil {x : RuntimeFunction} : ¬ CallsIn [] x :=
  fun ⟨_, h, _⟩ ↦ nomatch h

/-- What the generated code may look up and call, and the names of the functions of the program. -/
structure CodeUses where
  names : String → Prop
  fields : String → Prop
  calls : RuntimeFunction → Prop
  functions : String → Prop
  /-- The function that the `_tip_main` of a program without `main` calls. -/
  undefinedMain : FunctionRef → Prop
  /-- The generation of code is to be shown to end with a module. -/
  total : Prop
  /-- Nothing was compiled before. -/
  fresh : Prop

/-- The node looks up and calls only what it may. -/
structure ASTNode.Fits (U : CodeUses) (n : ASTNode) : Prop where
  names : ∀ x, n.variable' = some x → U.total → U.names x
  fields : ∀ f, n.field = some f → U.fields f
  calls : ∀ x, n.runtime = some x → U.calls x

/-- All nodes do. -/
def Fit (U : CodeUses) (events : List VisitEvent) : Prop :=
  ∀ n, .endVisit n ∈ events → n.Fits U

section Fit

variable {U : CodeUses}

theorem Fit.of_append {es es' : List VisitEvent} (h : Fit U (es ++ es')) : Fit U es ∧ Fit U es' :=
  ⟨fun n hn ↦ h n (List.mem_append_left _ hn), fun n hn ↦ h n (List.mem_append_right _ hn)⟩

theorem Fit.of_visiting {n : ASTNode} {es : List VisitEvent} (h : Fit U (visiting n es)) :
    n.Fits U ∧ Fit U es := by
  refine ⟨h n (by simp [visiting]), fun m hm ↦ h m ?_⟩
  simp [visiting, hm]

end Fit

namespace Llvm

/-! ### The module that is filled -/

/-- The number of blocks of the function at the insertion point. -/
def CodegenState.blockCount (s : CodegenState) : ℕ :=
  (s.module.functions[s.insertFunction]?.map fun f ↦ f.blocks.length).getD 0

section Modules

variable {m : Module} {f : ℕ} {l : IR.Label}

theorem Module.instructions_subset_modify {change : Function → Function}
    (h : ∀ g, (g.blocks.flatMap fun b ↦ b.map Prod.snd) ⊆
      ((change g).blocks.flatMap fun b ↦ b.map Prod.snd)) :
    m.instructions ⊆ { m with functions := m.functions.modify f change }.instructions := by
  intro i hi
  obtain ⟨g, hg, hi⟩ := List.mem_flatMap.1 hi
  obtain ⟨k, hk⟩ := List.getElem?_of_mem hg
  have hk' : (m.functions.modify f change)[k]? = some (if f = k then change g else g) := by
    rw [List.getElem?_modify, hk]
    by_cases hfk : f = k <;> simp [hfk]
  refine List.mem_flatMap.2 ⟨_, List.mem_of_getElem? hk', ?_⟩
  split_ifs
  · exact h g hi
  · exact hi

/-- A change of a block that keeps its instructions. -/
theorem Module.instructions_subset_modifyBlock {change : Block → Block}
    (h : ∀ b, b.map Prod.snd ⊆ (change b).map Prod.snd) :
    m.instructions ⊆ (m.modifyBlock f l change).instructions := by
  refine Module.instructions_subset_modify fun g i hi ↦ ?_
  obtain ⟨b, hb, hi⟩ := List.mem_flatMap.1 hi
  obtain ⟨k, hk⟩ := List.getElem?_of_mem hb
  have hk' : (g.blocks.modify l change)[k]? = some (if l = k then change b else b) := by
    rw [List.getElem?_modify, hk]
    by_cases hlk : l = k <;> simp [hlk]
  refine List.mem_flatMap.2 ⟨_, List.mem_of_getElem? hk', ?_⟩
  split_ifs
  · exact h b hi
  · exact hi

theorem Module.instructions_addBlock : (m.addBlock f).instructions = m.instructions := by
  unfold Module.instructions addBlock
  rw [List.flatMap_def, List.flatMap_def]
  congr 1
  refine List.ext_getElem? fun k ↦ ?_
  rw [List.getElem?_map, List.getElem?_modify, List.getElem?_map, Option.map_eq_map, Option.map_map]
  congr 1
  funext g
  by_cases hfk : f = k <;> simp [hfk]

theorem Module.instructions_create (name : String) (args : List String) (k : Kind) :
    (m.create name args k).instructions = m.instructions := by
  unfold Module.instructions create
  simp

theorem Module.names_create (name : String) (args : List String) (k : Kind) :
    (m.create name args k).names = m.names ++ [m.freshName name] := by
  unfold names create
  rw [List.map_append]
  rfl

theorem Module.names_eq (m : Module) : m.names = m.signatures.map Prod.fst := by
  unfold names signatures
  rw [List.map_map]
  rfl

theorem Module.names_addBlock : (m.addBlock f).names = m.names := by
  rw [names_eq, names_eq, signatures_addBlock]

theorem Module.names_modifyBlock (change : Block → Block) :
    (m.modifyBlock f l change).names = m.names := by
  rw [names_eq, names_eq, signatures_modifyBlock]

theorem Module.signatures_create (name : String) (args : List String) (k : Kind) :
    (m.create name args k).signatures = m.signatures ++ [(m.freshName name, args)] := by
  unfold signatures create
  rw [List.map_append]
  rfl

end Modules

section Insert

variable {s : CodegenState}

/-- An instruction that is appended at a block that is there is in the module. -/
theorem CodegenState.mem_insert (h : s.insertBlock < s.blockCount) (i : Instruction) :
    i ∈ (s.insert i).module.instructions := by
  unfold blockCount at h
  cases hf : s.module.functions[s.insertFunction]? with
  | none =>
    rw [hf] at h
    cases h
  | some g =>
    rw [hf] at h
    obtain ⟨b, hb⟩ : ∃ b, g.blocks[s.insertBlock]? = some b := ⟨_, List.getElem?_eq_getElem h⟩
    have hg : (s.insert i).module.functions[s.insertFunction]? =
        some { g with blocks := g.blocks.modify s.insertBlock fun b ↦ b ++ [(s.nextId, i)] } := by
      change (s.module.functions.modify s.insertFunction _)[s.insertFunction]? = _
      rw [List.getElem?_modify, hf]
      simp
    have hblock : (g.blocks.modify s.insertBlock fun b ↦ b ++ [(s.nextId, i)])[s.insertBlock]? =
        some (b ++ [(s.nextId, i)]) := by
      rw [List.getElem?_modify, hb]
      simp
    refine List.mem_flatMap.2 ⟨_, List.mem_of_getElem? hg, List.mem_flatMap.2
      ⟨_, List.mem_of_getElem? hblock, ?_⟩⟩
    simp

theorem Module.blockCount_modifyBlock (m : Module) (f : ℕ) (l : IR.Label) (change : Block → Block)
    (k : ℕ) : ((m.modifyBlock f l change).functions[k]?.map fun g ↦ g.blocks.length) =
      m.functions[k]?.map fun g ↦ g.blocks.length := by
  unfold modifyBlock
  rw [List.getElem?_modify, Option.map_eq_map, Option.map_map]
  congr 1
  funext g
  by_cases hfk : f = k <;> simp [hfk]

end Insert

/-! ### Two states -/

section Related

variable (d : Offset) (U : CodeUses)

/-- The pointers of a compilation that started without any. -/
structure Linked (s : CodegenState) : Prop where
  own : ∀ r, s.nop = some r ∨ s.calloc = some r ∨ (∃ i, s.intrinsics i = some r) →
    r.module = s.serial
  direct : ∀ r args, .call (.function r) args ∈ s.module.instructions →
    r.module = s.serial ∧ (s.nop = some r ∨ ∃ x, U.calls x ∧ s.Refers x r)
  /-- A function that is declared gets the name of its symbol, unless a function of the program has it. -/
  named : ∀ i r, s.intrinsics i = some r → ∃ name, s.module.names[r.index]? = some name ∧
    (name = i.symbol ↔ ¬ U.functions i.symbol)
  free : ∀ i, s.intrinsics i = none → (i.symbol ∈ s.module.names ↔ U.functions i.symbol)
  nopReturns : ∀ r, s.nop = some r → r.returns = .void
  callocReturns : ∀ r, s.calloc = some r → r.returns = .pointer
  intrinsicReturns : ∀ i r, s.intrinsics i = some r → r.returns = .int
  distinct : ∀ i j r, s.intrinsics i = some r → s.intrinsics j = some r → i = j
  undefined : ∀ r args, .call (.function r) args ∈ s.module.instructions → r.returns = .void →
    s.nop ≠ some r → U.undefinedMain r

/-- Between two functions, the second state has the tables of the first where they are looked at, and
its module but for the numbers. -/
structure Between (s s' : CodegenState) : Prop where
  module : s'.module = s.module.shift d
  nextId : s'.nextId = s.nextId + d.ids
  serial : s'.serial = s.serial + d.modules
  lValueGen : s'.lValueGen = s.lValueGen
  allocFlag : s'.allocFlag = s.allocFlag
  recordFields : s'.recordFields = s.recordFields
  nop : s'.nop = shift d s.nop
  calloc : s'.calloc = shift d s.calloc
  intrinsics : ∀ i, U.calls (.intrinsic i) → s'.intrinsics i = shift d (s.intrinsics i)
  functionIndex : ∀ x k, s.functionIndex x = some k → s'.functionIndex x = some k
  formalNames : ∀ x, U.functions x → s'.functionFormalNames x = s.functionFormalNames x
  fieldIndex : ∀ f k, s.fieldIndex f = some k → s'.fieldIndex f = some k
  fields : ∀ f, U.fields f → (s.fieldIndex f).isSome
  hasNop : s.nop.isSome
  hasCalloc : s.calloc.isSome
  allocates : s.allocFlag = true → U.calls .calloc
  linked : U.fresh → Linked U s

/-- In a function, the two states are at the same place, which is there, and have the same variables.
The function has `n` blocks at least. -/
structure Ahead (n : ℕ) (s s' : CodegenState) : Prop extends Between d U s s' where
  insertFunction : s'.insertFunction = s.insertFunction
  insertBlock : s'.insertBlock = s.insertBlock
  namedValues : ∀ x, s'.namedValues x = shift d (s.namedValues x)
  resolves : U.total → ∀ x, U.names x → (s.namedValues x).isSome ∨ (s.functionIndex x).isSome
  inBlock : s.insertBlock < s.blockCount
  bound : n ≤ s.blockCount

/-- What code generation only adds to, and what it leaves. -/
structure Grows (s t : CodegenState) : Prop where
  instructions : s.module.instructions ⊆ t.module.instructions
  signatures : s.module.signatures <+: t.module.signatures
  intrinsics : ∀ i r, s.intrinsics i = some r → t.intrinsics i = some r
  declared : ∀ i r, t.intrinsics i = some r →
    s.intrinsics i = some r ∨ U.calls (.intrinsic i) ∧ r.module = s.serial
  nop : t.nop = s.nop
  calloc : t.calloc = s.calloc
  dispatchTable : t.module.dispatchTable = s.module.dispatchTable
  numInputs : t.module.numInputs = s.module.numInputs
  serial : t.serial = s.serial
  functionIndex : t.functionIndex = s.functionIndex
  formalNames : t.functionFormalNames = s.functionFormalNames
  numTIPArgs : t.numTIPArgs = s.numTIPArgs

/-- From the two states, the second computation does what the first does, and the first calls the
runtime functions of `X`. -/
def FollowsAt {α : Type} [Shifts α] (n : ℕ) (m m' : Generate α) (X : RuntimeFunction → Prop)
    (s s' : CodegenState) : Prop :=
  Run.Relates U.total m m' s s' fun a t a' t' ↦
    a' = shift d a ∧ Ahead d U n t t' ∧ Grows U s t ∧ ∀ x, X x → t.CallsRuntime x

/-- The same from any two states that are related. -/
def FollowsAny {α : Type} [Shifts α] (n : ℕ) (m m' : Generate α) (X : RuntimeFunction → Prop) : Prop :=
  ∀ s s', Ahead d U n s s' → FollowsAt d U n m m' X s s'

end Related

section Rules

variable {d : Offset} {U : CodeUses} {n : ℕ} {s s' t u : CodegenState} {α β : Type} [Shifts α] [Shifts β]
  {X Y : RuntimeFunction → Prop}

/-! ### Growing -/

theorem Grows.refl (s : CodegenState) : Grows U s s where
  instructions := List.Subset.refl _
  signatures := List.prefix_refl _
  intrinsics _ _ := id
  declared _ _ := Or.inl
  nop := rfl
  calloc := rfl
  dispatchTable := rfl
  numInputs := rfl
  serial := rfl
  functionIndex := rfl
  formalNames := rfl
  numTIPArgs := rfl

theorem Grows.trans (h : Grows U s t) (h' : Grows U t u) : Grows U s u where
  instructions := List.Subset.trans h.instructions h'.instructions
  signatures := h.signatures.trans h'.signatures
  intrinsics i r hr := h'.intrinsics i r (h.intrinsics i r hr)
  declared i r hi := by
    rcases h'.declared i r hi with hi | ⟨hU, hr⟩
    · exact h.declared i r hi
    · exact Or.inr ⟨hU, hr.trans h.serial⟩
  nop := h'.nop.trans h.nop
  calloc := h'.calloc.trans h.calloc
  dispatchTable := h'.dispatchTable.trans h.dispatchTable
  numInputs := h'.numInputs.trans h.numInputs
  serial := h'.serial.trans h.serial
  functionIndex := h'.functionIndex.trans h.functionIndex
  formalNames := h'.formalNames.trans h.formalNames
  numTIPArgs := h'.numTIPArgs.trans h.numTIPArgs

theorem Grows.refers (h : Grows U s t) {x : RuntimeFunction} {r : FunctionRef} (hr : s.Refers x r) :
    t.Refers x r := by
  cases x with
  | calloc => exact h.calloc.trans hr
  | undefinedMain => exact ⟨hr.1, h.nop ▸ hr.2⟩
  | intrinsic i => exact h.intrinsics i r hr

theorem Grows.callsRuntime (h : Grows U s t) {x : RuntimeFunction} (hx : s.CallsRuntime x) :
    t.CallsRuntime x := by
  obtain ⟨r, args, hr, hcall⟩ := hx
  exact ⟨r, args, h.refers hr, h.instructions hcall⟩

/-! ### Computations in sequence -/

omit [Shifts β] in
theorem FollowsAt.of_relates {m m' : Generate α}
    (h : Run.Relates U.total m m' s s' fun a t a' t' ↦
      a' = shift d a ∧ Ahead d U n t t' ∧ Grows U s t ∧ ∀ x, X x → t.CallsRuntime x) :
    FollowsAt d U n m m' X s s' :=
  h

theorem FollowsAt.bind {m m' : Generate α} {f f' : α → Generate β}
    (hm : FollowsAt d U n m m' X s s')
    (hf : ∀ a t t', Ahead d U n t t' → Grows U s t →
      FollowsAt d U n (f a) (f' (shift d a)) Y t t') :
    FollowsAt d U n (m >>= f) (m' >>= f') (fun x ↦ X x ∨ Y x) s s' := by
  refine Run.Relates.bind hm ?_
  rintro a t _ t' ⟨rfl, hahead, hgrows, hX⟩
  refine (hf a t t' hahead hgrows).mono ?_
  rintro b u b' u' ⟨hb, hahead', hgrows', hY⟩
  exact ⟨hb, hahead', hgrows.trans hgrows',
    fun x hx ↦ hx.elim (fun hx ↦ hgrows'.callsRuntime (hX x hx)) (hY x)⟩

theorem FollowsAny.bind {m m' : Generate α} {f f' : α → Generate β} (hm : FollowsAny d U n m m' X)
    (hf : ∀ a, FollowsAny d U n (f a) (f' (shift d a)) Y) :
    FollowsAny d U n (m >>= f) (m' >>= f') fun x ↦ X x ∨ Y x :=
  fun s s' h ↦ (hm s s' h).bind fun a t t' ht _ ↦ hf a t t' ht

omit [Shifts β] in
theorem FollowsAt.weaken {m m' : Generate α} (h : FollowsAt d U n m m' X s s')
    (hXY : ∀ x, Y x → X x) : FollowsAt d U n m m' Y s s' :=
  Run.Relates.mono h fun _ _ _ _ ⟨ha, hahead, hgrows, hX⟩ ↦
    ⟨ha, hahead, hgrows, fun x hx ↦ hX x (hXY x hx)⟩

omit [Shifts β] in
theorem FollowsAny.weaken {m m' : Generate α} (h : FollowsAny d U n m m' X) (hXY : ∀ x, Y x → X x) :
    FollowsAny d U n m m' Y :=
  fun s s' hs ↦ (h s s' hs).weaken hXY

omit [Shifts β] in
theorem follows_pure (a : α) :
    FollowsAny d U n (pure a : Generate α) (pure (shift d a)) fun _ ↦ False :=
  fun _ _ h ↦ Run.relates_pure ⟨rfl, h, Grows.refl _, fun _ ↦ False.elim⟩

omit [Shifts β] in
/-- A step that reads or changes the state. -/
theorem follows_access {f f' : CodegenState → α × CodegenState}
    (h : ∀ s s', Ahead d U n s s' → (f' s').1 = shift d (f s).1 ∧
      Ahead d U n (f s).2 (f' s').2 ∧ Grows U s (f s).2) :
    FollowsAny d U n (Run.access f) (Run.access f') fun _ ↦ False := by
  intro s s' hs
  obtain ⟨ha, hahead, hgrows⟩ := h s s' hs
  exact Run.relates_access ⟨ha, hahead, hgrows, fun _ ↦ False.elim⟩

omit [Shifts β] in
/-- What is read of the two states may differ where the code that follows does not look. -/
theorem follows_get {f f' : CodegenState → Generate α}
    (h : ∀ s s', Ahead d U n s s' → FollowsAt d U n (f s) (f' s') X s s') :
    FollowsAny d U n (get >>= f) (get >>= f') X := by
  intro s s' hs
  refine Run.Relates.bind (Q := fun a t a' t' ↦ a = s ∧ t = s ∧ a' = s' ∧ t' = s')
    (Run.relates_access ⟨rfl, rfl, rfl, rfl⟩) ?_
  rintro _ _ _ _ ⟨rfl, rfl, rfl, rfl⟩
  exact h _ _ hs

omit [Shifts β] in
/-- The event on entry to an expression. -/
theorem follows_entered (e : ASTExpr) {m m' : Generate α} (h : FollowsAny d U n m m' X) :
    FollowsAny d U n
      (get >>= fun s ↦ Run.emit (.entered e s.lValueGen s.allocFlag) >>= fun _ ↦ m)
      (get >>= fun s ↦ Run.emit (.entered e s.lValueGen s.allocFlag) >>= fun _ ↦ m') X := by
  refine follows_get fun s s' hs ↦ ?_
  refine Run.Relates.bind (Q := fun _ t _ t' ↦ t = s ∧ t' = s')
    (Run.relates_emit ⟨rfl, rfl⟩) ?_
  rintro _ _ _ _ ⟨rfl, rfl⟩
  exact h _ _ hs

/-! ### Instructions -/

/-- A call of a function by its pointer is of the nop or of a runtime function that may be called. -/
def Direct (U : CodeUses) (s : CodegenState) (i : Instruction) : Prop :=
  ∀ r args, i = .call (.function r) args →
    s.nop = some r ∨ s.calloc = some r ∧ U.calls .calloc ∨
      ∃ j, s.intrinsics j = some r ∧ U.calls (.intrinsic j)

theorem Linked.modifyBlock (h : Linked U s) {l : IR.Label} {change : Block → Block} {i : Instruction}
    {k : ℕ} (hchange : ∀ b, ∀ x ∈ change b, x ∈ b ∨ x.2 = i) (hi : Direct U s i) :
    Linked U { s with module := s.module.modifyBlock s.insertFunction l change, nextId := k } where
  own := h.own
  direct r args hcall := by
    rcases Module.mem_instructions_modifyBlock hchange hcall with hcall | rfl
    · exact h.direct r args hcall
    · rcases hi r args rfl with hnop | ⟨hcalloc, hU⟩ | ⟨j, hj, hU⟩
      · exact ⟨h.own r (Or.inl hnop), Or.inl hnop⟩
      · exact ⟨h.own r (Or.inr (Or.inl hcalloc)), Or.inr ⟨.calloc, hU, hcalloc⟩⟩
      · exact ⟨h.own r (Or.inr (Or.inr ⟨j, hj⟩)), Or.inr ⟨.intrinsic j, hU, hj⟩⟩
  named j r hr := by
    obtain ⟨name, hname, hsymbol⟩ := h.named j r hr
    exact ⟨name, (congrArg (·[r.index]?) (Module.names_modifyBlock change)).trans hname, hsymbol⟩
  free j hj := by
    refine Iff.trans ?_ (h.free j hj)
    rw [Module.names_modifyBlock]
  nopReturns := h.nopReturns
  callocReturns := h.callocReturns
  intrinsicReturns := h.intrinsicReturns
  distinct := h.distinct
  undefined r args hcall hvoid hnop := by
    rcases Module.mem_instructions_modifyBlock hchange hcall with hcall | rfl
    · exact h.undefined r args hcall hvoid hnop
    · rcases hi r args rfl with hr | ⟨hr, -⟩ | ⟨j, hr, -⟩
      · exact absurd hr hnop
      · cases hvoid.symm.trans (h.callocReturns r hr)
      · cases hvoid.symm.trans (h.intrinsicReturns j r hr)

/-- A block is changed, in both states in the same way. -/
theorem Ahead.modifyBlock (h : Ahead d U n s s') {l : IR.Label} {change change' : Block → Block}
    {i : Instruction} (hshift : ∀ b, (change b).shift d = change' (b.shift d))
    (hchange : ∀ b, ∀ x ∈ change b, x ∈ b ∨ x.2 = i) (hi : Direct U s i) :
    Ahead d U n
      { s with module := s.module.modifyBlock s.insertFunction l change, nextId := s.nextId + 1 }
      { s' with
        module := s'.module.modifyBlock s'.insertFunction l change'
        nextId := s'.nextId + 1 } where
  module := by
    rw [h.insertFunction, h.module]
    exact (s.module.modifyBlock_shift d hshift _ l).symm
  nextId := by
    change s'.nextId + 1 = s.nextId + 1 + d.ids
    rw [h.nextId]
    omega
  serial := h.serial
  lValueGen := h.lValueGen
  allocFlag := h.allocFlag
  recordFields := h.recordFields
  nop := h.nop
  calloc := h.calloc
  intrinsics := h.intrinsics
  functionIndex := h.functionIndex
  formalNames := h.formalNames
  fieldIndex := h.fieldIndex
  fields := h.fields
  hasNop := h.hasNop
  hasCalloc := h.hasCalloc
  allocates := h.allocates
  linked hfresh := (h.linked hfresh).modifyBlock hchange hi
  insertFunction := h.insertFunction
  insertBlock := h.insertBlock
  namedValues := h.namedValues
  resolves := h.resolves
  inBlock := by
    change _ < Option.getD (Option.map _ _) 0
    rw [Module.blockCount_modifyBlock]
    exact h.inBlock
  bound := by
    change _ ≤ Option.getD (Option.map _ _) 0
    rw [Module.blockCount_modifyBlock]
    exact h.bound

theorem Grows.modifyBlock (s : CodegenState) {l : IR.Label} {change : Block → Block} {k : ℕ}
    (hsubset : ∀ b, b.map Prod.snd ⊆ (change b).map Prod.snd) :
    Grows U s
      { s with module := s.module.modifyBlock s.insertFunction l change, nextId := k } where
  instructions := Module.instructions_subset_modifyBlock hsubset
  signatures := by
    change _ <+: (s.module.modifyBlock _ _ _).signatures
    rw [Module.signatures_modifyBlock]
  intrinsics _ _ := id
  declared _ _ := Or.inl
  nop := rfl
  calloc := rfl
  dispatchTable := rfl
  numInputs := rfl
  serial := rfl
  functionIndex := rfl
  formalNames := rfl
  numTIPArgs := rfl

theorem Ahead.insert (h : Ahead d U n s s') {i : Instruction} (hi : Direct U s i) :
    Ahead d U n (s.insert i) (s'.insert (shift d i)) := by
  have hshift : ∀ b : Block, Block.shift d (b ++ [(s.nextId, i)]) =
      b.shift d ++ [(s'.nextId, shift d i)] := by
    intro b
    unfold Block.shift
    rw [List.map_append, List.map_singleton, shiftEntry, h.nextId]
  have hchange : ∀ b : Block, ∀ x ∈ b ++ [(s.nextId, i)], x ∈ b ∨ x.2 = i :=
    fun b x hx ↦ (List.mem_append.1 hx).imp_right fun hx ↦ by rw [List.mem_singleton.1 hx]
  have hinsert : s'.insert (shift d i) =
      { s' with
        module := s'.module.modifyBlock s'.insertFunction s.insertBlock
          fun b ↦ b ++ [(s'.nextId, shift d i)]
        nextId := s'.nextId + 1 } := by
    rw [← h.insertBlock]
    rfl
  rw [hinsert]
  exact h.modifyBlock hshift hchange hi

theorem Grows.insert (s : CodegenState) (i : Instruction) : Grows U s (s.insert i) :=
  Grows.modifyBlock s fun b ↦ by simp

/-- Appends an instruction, whose value is then of the same kind in both states. -/
theorem followsAt_emit (h : Ahead d U n s s') {i : Instruction} (hi : Direct U s i)
    (hX : ∀ x, X x → (s.insert i).CallsRuntime x) :
    FollowsAt d U n (emit i) (emit (shift d i)) X s s' := by
  refine Run.relates_access ⟨?_, h.insert hi, Grows.insert s i, hX⟩
  change Operand.result s'.nextId (shift d i).kind = .result (s.nextId + d.ids) i.kind
  rw [h.nextId, Instruction.kind_shift]

theorem followsAt_emitUnit (h : Ahead d U n s s') {i : Instruction} (hi : Direct U s i)
    (hX : ∀ x, X x → (s.insert i).CallsRuntime x) :
    FollowsAt d U n (emitUnit i) (emitUnit (shift d i)) X s s' :=
  Run.relates_access ⟨rfl, h.insert hi, Grows.insert s i, hX⟩

theorem follows_emit (i : Instruction)
    (hi : ∀ r args, i ≠ .call (.function r) args := by intro _ _ h; cases h) :
    FollowsAny d U n (emit i) (emit (shift d i)) fun _ ↦ False :=
  fun _ _ h ↦ followsAt_emit h (fun r args hr ↦ absurd hr (hi r args)) fun _ ↦ False.elim

theorem follows_emitUnit (i : Instruction)
    (hi : ∀ r args, i ≠ .call (.function r) args := by intro _ _ h; cases h) :
    FollowsAny d U n (emitUnit i) (emitUnit (shift d i)) fun _ ↦ False :=
  fun _ _ h ↦ followsAt_emitUnit h (fun r args hr ↦ absurd hr (hi r args)) fun _ ↦ False.elim

/-- A call of a runtime function is in the module. -/
theorem callsRuntime_insert (h : Ahead d U n s s') {x : RuntimeFunction} {r : FunctionRef}
    (hr : s.Refers x r) (args : List Operand) : (s.insert (.call (.function r) args)).CallsRuntime x :=
  ⟨r, args, (Grows.insert (U := U) s _).refers hr, CodegenState.mem_insert h.inBlock _⟩

theorem follows_createEntryBlockAlloca (o : Origin) :
    FollowsAny d U n (createEntryBlockAlloca o) (createEntryBlockAlloca o) fun _ ↦ False := by
  refine follows_access fun s s' h ↦ ⟨?_, ?_, ?_⟩
  · change Alloca.mk s'.nextId o = ⟨s.nextId + d.ids, o⟩
    rw [h.nextId]
  · refine h.modifyBlock (i := .alloca .int) (fun b ↦ ?_) (fun b x hx ↦ ?_) fun _ _ h ↦ nomatch h
    · unfold Block.shift
      rw [List.map_cons, shiftEntry, h.nextId]
      rfl
    · exact (List.mem_cons.1 hx).symm.imp_right fun hx ↦ by rw [hx]
  · exact Grows.modifyBlock s fun b ↦ List.subset_cons_self _ _

/-! ### Blocks -/

theorem Linked.congr (h : Linked U s) (hmodule : t.module.instructions = s.module.instructions)
    (hnames : t.module.names = s.module.names) (hnop : t.nop = s.nop) (hcalloc : t.calloc = s.calloc)
    (hintrinsics : t.intrinsics = s.intrinsics) (hserial : t.serial = s.serial) : Linked U t where
  own := by
    rw [hnop, hcalloc, hintrinsics, hserial]
    exact h.own
  direct r args hcall := by
    rw [hmodule] at hcall
    obtain ⟨hown, hr⟩ := h.direct r args hcall
    rw [hserial, hnop]
    refine ⟨hown, hr.imp_right fun ⟨x, hx, hr⟩ ↦ ⟨x, hx, ?_⟩⟩
    cases x with
    | calloc => exact hcalloc.trans hr
    | undefinedMain => exact ⟨hr.1, hnop ▸ hr.2⟩
    | intrinsic i => exact (congrFun hintrinsics i).trans hr
  named := by
    rw [hintrinsics, hnames]
    exact h.named
  free := by
    rw [hintrinsics, hnames]
    exact h.free
  nopReturns := hnop ▸ h.nopReturns
  callocReturns := hcalloc ▸ h.callocReturns
  intrinsicReturns := hintrinsics ▸ h.intrinsicReturns
  distinct := hintrinsics ▸ h.distinct
  undefined := by
    rw [hmodule, hnop]
    exact h.undefined

theorem follows_setInsertPoint {l : IR.Label} (hl : l < n) :
    FollowsAny d U n (setInsertPoint l) (setInsertPoint l) fun _ ↦ False :=
  follows_access fun s _ h ↦ ⟨rfl,
    { h with
      insertBlock := rfl
      inBlock := hl.trans_le h.bound
      linked := fun hfresh ↦ (h.linked hfresh).congr rfl rfl rfl rfl rfl rfl },
    { Grows.refl (U := U) s with }⟩

theorem follows_getInsertBlock :
    FollowsAny d U n getInsertBlock getInsertBlock fun _ ↦ False :=
  follows_access fun s _ h ↦ ⟨h.insertBlock, h, Grows.refl s⟩

theorem Module.blockCount_addBlock {m : Module} {k : ℕ} (h : k < m.functions.length) :
    (((m.addBlock k).functions[k]?.map fun f ↦ f.blocks.length).getD 0) =
      (m.functions[k]?.map fun f ↦ f.blocks.length).getD 0 + 1 := by
  change Option.getD (Option.map _ ((m.functions.modify k _)[k]?)) 0 = _
  rw [List.getElem?_modify, List.getElem?_eq_getElem h]
  simp

theorem CodegenState.insertFunction_lt (h : s.insertBlock < s.blockCount) :
    s.insertFunction < s.module.functions.length := by
  by_contra hlt
  unfold blockCount at h
  rw [List.getElem?_eq_none (Nat.le_of_not_lt hlt)] at h
  cases h

theorem CodegenState.blockCount_addBlock (h : s.insertBlock < s.blockCount) :
    CodegenState.blockCount { s with module := s.module.addBlock s.insertFunction } =
      s.blockCount + 1 :=
  Module.blockCount_addBlock (insertFunction_lt h)

theorem Ahead.addBlock (h : Ahead d U n s s') {k : ℕ} (hk : k ≤ s.blockCount) :
    Ahead d U (k + 1) { s with module := s.module.addBlock s.insertFunction }
      { s' with module := s'.module.addBlock s'.insertFunction } :=
  { h with
    module := by
      rw [h.insertFunction, h.module]
      exact (s.module.addBlock_shift d _).symm
    linked := fun hfresh ↦ (h.linked hfresh).congr Module.instructions_addBlock Module.names_addBlock
      rfl rfl rfl rfl
    inBlock := by
      rw [CodegenState.blockCount_addBlock h.inBlock]
      exact h.inBlock.trans_le (Nat.le_succ _)
    bound := by
      rw [CodegenState.blockCount_addBlock h.inBlock]
      exact Nat.succ_le_succ hk }

theorem Grows.addBlock (s : CodegenState) :
    Grows U s { s with module := s.module.addBlock s.insertFunction } :=
  { Grows.refl (U := U) s with
    instructions := by
      rw [Module.instructions_addBlock]
      exact List.Subset.refl _
    signatures := by
      rw [Module.signatures_addBlock] }

theorem Ahead.mono {k : ℕ} (h : Ahead d U n s s') (hk : k ≤ n) : Ahead d U k s s' :=
  { h with bound := hk.trans h.bound }

/-- What follows the creation of a block may go to the block. -/
theorem follows_createBlock {f f' : IR.Label → Generate α}
    (h : ∀ l, n ≤ l → FollowsAny d U (l + 1) (f l) (f' l) X) :
    FollowsAny d U n (createBlock >>= f) (createBlock >>= f') X := by
  intro s s' hs
  refine Run.Relates.bind (Q := fun l t l' t' ↦ l = s.blockCount ∧ l' = l ∧
    Ahead d U (l + 1) t t' ∧ Grows U s t) (Run.relates_access ⟨rfl, ?_, hs.addBlock le_rfl, Grows.addBlock s⟩) ?_
  · change Option.getD _ 0 = Option.getD _ 0
    rw [hs.insertFunction, hs.module, Module.length_blocks_shift]
  · rintro l t _ t' ⟨rfl, rfl, hahead, hgrows⟩
    refine (h _ hs.bound t t' hahead).mono ?_
    rintro a u a' u' ⟨ha, hahead', hgrows', hX⟩
    exact ⟨ha, hahead'.mono (Nat.le_succ_of_le hs.bound), hgrows.trans hgrows', hX⟩

/-! ### Flags and tables -/

theorem follows_setLValueGen (b : Bool) :
    FollowsAny d U n (modify fun s ↦ { s with lValueGen := b }) (modify fun s ↦ { s with lValueGen := b })
      fun _ ↦ False :=
  follows_access fun s _ h ↦ ⟨rfl,
    { h with
      lValueGen := rfl
      linked := fun hfresh ↦ (h.linked hfresh).congr rfl rfl rfl rfl rfl rfl },
    { Grows.refl (U := U) s with }⟩

theorem follows_setAllocFlag {b : Bool} (hb : b = true → U.calls .calloc) :
    FollowsAny d U n (modify fun s ↦ { s with allocFlag := b }) (modify fun s ↦ { s with allocFlag := b })
      fun _ ↦ False :=
  follows_access fun s _ h ↦ ⟨rfl,
    { h with
      allocFlag := rfl
      allocates := hb
      linked := fun hfresh ↦ (h.linked hfresh).congr rfl rfl rfl rfl rfl rfl },
    { Grows.refl (U := U) s with }⟩

theorem follows_takeLValue : FollowsAny d U n takeLValue takeLValue fun _ ↦ False := by
  unfold takeLValue
  refine follows_get fun s s' h ↦ ?_
  rw [h.lValueGen]
  refine ((follows_setLValueGen false).bind fun _ ↦ follows_pure s.lValueGen) s s' h |>.weaken ?_
  exact fun _ ↦ False.elim

/-- A field of the program has its place already. -/
theorem follows_fieldSlot {field : String} (hfield : U.fields field) :
    FollowsAny d U n (fieldSlot field) (fieldSlot field) fun _ ↦ False := by
  refine follows_access fun s s' h ↦ ?_
  obtain ⟨k, hk⟩ := Option.isSome_iff_exists.1 (h.fields field hfield)
  rw [hk, h.fieldIndex field k hk]
  exact ⟨rfl, h, Grows.refl s⟩

theorem follows_address (e : ASTExpr) {code : Generate Operand} (h : FollowsAny d U n code code X) :
    FollowsAny d U n (address e code) (address e code) X := by
  unfold address
  refine FollowsAny.weaken ((follows_setLValueGen true).bind fun _ ↦ h.bind fun v ↦
    (follows_setLValueGen false).bind fun _ ↦ FollowsAny.bind (X := fun _ ↦ False) (α := Unit) ?_
      fun _ ↦ follows_pure v) fun x hx ↦ Or.inr (Or.inl hx)
  exact fun s s' hs ↦ Run.relates_emit ⟨rfl, hs, Grows.refl s, fun _ ↦ False.elim⟩

/-! ### Calls of the runtime -/

theorem follows_callNop : FollowsAny d U n callNop callNop fun _ ↦ False := by
  unfold callNop
  refine follows_get fun s s' h ↦ ?_
  refine Run.Relates.bind (Q := fun nop t nop' t' ↦ s.nop = some nop ∧ nop' = shift d nop ∧
    t = s ∧ t' = s') (Run.relates_orFail (fun _ ↦ h.hasNop) fun nop hnop ↦
      ⟨shift d nop, by rw [h.nop, hnop]; rfl, hnop, rfl, rfl, rfl⟩) ?_
  rintro nop _ _ _ ⟨hnop, rfl, rfl, rfl⟩
  refine followsAt_emitUnit h (i := .call (.function nop) []) (fun r args hr ↦ Or.inl ?_)
    fun _ ↦ False.elim
  cases hr
  exact hnop

theorem follows_callCalloc (hU : U.calls .calloc) (items size : Operand) :
    FollowsAny d U n (callCalloc items size) (callCalloc (shift d items) (shift d size))
      fun x ↦ x = .calloc := by
  unfold callCalloc
  refine follows_get fun s s' h ↦ ?_
  refine Run.Relates.bind (Q := fun calloc t calloc' t' ↦ s.calloc = some calloc ∧
    calloc' = shift d calloc ∧ t = s ∧ t' = s') (Run.relates_orFail (fun _ ↦ h.hasCalloc)
      fun calloc hcalloc ↦ ⟨shift d calloc, by rw [h.calloc, hcalloc]; rfl, hcalloc, rfl, rfl, rfl⟩) ?_
  rintro calloc _ _ _ ⟨hcalloc, rfl, rfl, rfl⟩
  refine followsAt_emit h (i := .call (.function calloc) [items, size])
    (fun r args hr ↦ Or.inr (Or.inl ?_)) ?_
  · cases hr
    exact ⟨hcalloc, hU⟩
  · rintro _ rfl
    exact callsRuntime_insert h (x := .calloc) hcalloc _

theorem RuntimeFunction.symbol_injective : Function.Injective RuntimeFunction.symbol := by
  intro x y h
  rcases x with _ | _ | (_ | _ | _) <;> rcases y with _ | _ | (_ | _ | _) <;>
    first | rfl | exact absurd h (by decide)

theorem RuntimeFunction.not_mem_symbol (x : RuntimeFunction) : '.' ∉ x.symbol.toList := by
  rcases x with _ | _ | (_ | _ | _) <;> decide

/-- A number makes a name another one than every symbol. -/
theorem RuntimeFunction.freshName_ne (x : RuntimeFunction) {name : String} (h : name ≠ x.symbol)
    (m : Module) : m.freshName name ≠ x.symbol := by
  intro hsymbol
  rcases m.freshName_cases name with ⟨-, hname⟩ | ⟨-, -, k, hname⟩
  · exact h (hname.symm.trans hsymbol)
  · refine x.not_mem_symbol ?_
    rw [← hsymbol, hname]
    simp

/-- A new function has the name that is asked for unless it is taken. -/
theorem Module.named_create (m : Module) (name : String) (args : List String) (k : Kind) :
    ∃ given, (m.create name args k).names[m.functions.length]? = some given ∧
      (given = name ↔ name ∉ m.names) := by
  refine ⟨m.freshName name, ?_, ?_⟩
  · rw [names_create, ← List.length_map Function.name]
    exact List.getElem?_concat_length
  · rcases m.freshName_cases name with ⟨hfree, hname⟩ | ⟨htaken, hfresh, -⟩
    · exact ⟨fun _ ↦ hfree, fun _ ↦ hname⟩
    · exact ⟨fun hname ↦ absurd htaken (hname ▸ hfresh), fun hfree ↦ absurd htaken hfree⟩

theorem CodegenState.blockCount_create {s : CodegenState} (h : s.insertBlock < s.blockCount)
    (name : String) (args : List String) (k : Kind) :
    (s.create name args k).blockCount = s.blockCount := by
  have hlt := insertFunction_lt h
  unfold blockCount
  change Option.getD (Option.map _ ((s.module.functions ++ _)[s.insertFunction]?)) 0 = _
  rw [List.getElem?_append_left hlt]

/-- The state after a runtime function is declared. -/
def CodegenState.declare (s : CodegenState) (i : Intrinsic) : CodegenState :=
  { s.create i.symbol [] .int with
    intrinsics := Function.update s.intrinsics i
      (some ⟨s.serial, s.module.functions.length, .int⟩) }

theorem CodegenState.declare_intrinsics {i j : Intrinsic} {r : FunctionRef}
    (h : (s.declare i).intrinsics j = some r) :
    j = i ∧ r = ⟨s.serial, s.module.functions.length, .int⟩ ∨ j ≠ i ∧ s.intrinsics j = some r := by
  change Function.update s.intrinsics i _ j = _ at h
  by_cases hij : j = i
  · subst hij
    rw [Function.update_self] at h
    exact Or.inl ⟨rfl, (Option.some.inj h).symm⟩
  · rw [Function.update_of_ne hij] at h
    exact Or.inr ⟨hij, h⟩

theorem Linked.declare (h : Linked U s) {i : Intrinsic} (hi : s.intrinsics i = none) :
    Linked U (s.declare i) where
  own r hr := by
    rcases hr with hr | hr | ⟨j, hr⟩
    · exact h.own r (Or.inl hr)
    · exact h.own r (Or.inr (Or.inl hr))
    · rcases CodegenState.declare_intrinsics hr with ⟨-, rfl⟩ | ⟨-, hr⟩
      · rfl
      · exact h.own r (Or.inr (Or.inr ⟨j, hr⟩))
  direct r args hcall := by
    change _ ∈ (s.module.create _ _ _).instructions at hcall
    rw [Module.instructions_create] at hcall
    refine (h.direct r args hcall).imp_right (Or.imp_right fun ⟨x, hx, hr⟩ ↦ ⟨x, hx, ?_⟩)
    cases x with
    | calloc => exact hr
    | undefinedMain => exact hr
    | intrinsic j =>
      have hij : j ≠ i := by
        rintro rfl
        cases hi.symm.trans hr
      exact (Function.update_of_ne hij _ _).trans hr
  named j r hr := by
    change ∃ name, (s.module.create _ _ _).names[r.index]? = _ ∧ _
    rw [Module.names_create]
    rcases CodegenState.declare_intrinsics hr with ⟨rfl, rfl⟩ | ⟨-, hr⟩
    · obtain ⟨name, hname, hsymbol⟩ := s.module.named_create j.symbol [] .int
      refine ⟨name, ?_, hsymbol.trans (not_congr (h.free j hi))⟩
      rw [← Module.names_create]
      exact hname
    · obtain ⟨name, hname, hsymbol⟩ := h.named j r hr
      refine ⟨name, ?_, hsymbol⟩
      rw [List.getElem?_append_left (List.getElem?_eq_some_iff.1 hname).1]
      exact hname
  free j hj := by
    change Function.update s.intrinsics i _ j = _ at hj
    change _ ∈ (s.module.create _ _ _).names ↔ _
    have hij : j ≠ i := by
      rintro rfl
      rw [Function.update_self] at hj
      cases hj
    rw [Function.update_of_ne hij] at hj
    rw [Module.names_create, List.mem_append, List.mem_singleton, ← h.free j hj]
    have hne : (RuntimeFunction.intrinsic i).symbol ≠ (RuntimeFunction.intrinsic j).symbol :=
      fun heq ↦ hij (RuntimeFunction.intrinsic.inj (RuntimeFunction.symbol_injective heq)).symm
    exact or_iff_left (RuntimeFunction.freshName_ne (.intrinsic j) hne s.module).symm
  nopReturns := h.nopReturns
  callocReturns := h.callocReturns
  intrinsicReturns j r hr := by
    rcases CodegenState.declare_intrinsics hr with ⟨-, rfl⟩ | ⟨-, hr⟩
    · rfl
    · exact h.intrinsicReturns j r hr
  distinct j k r hj hk := by
    have hlt : ∀ l, s.intrinsics l = some r → r.index < s.module.functions.length := by
      intro l hl
      obtain ⟨name, hname, -⟩ := h.named l r hl
      exact (List.getElem?_eq_some_iff.1 hname).1.trans_eq (List.length_map _)
    rcases CodegenState.declare_intrinsics hj with ⟨hij, hr⟩ | ⟨-, hj'⟩ <;>
      rcases CodegenState.declare_intrinsics hk with ⟨hik, hr'⟩ | ⟨-, hk'⟩
    · exact hij.trans hik.symm
    · exact absurd (hlt k hk') (by rw [hr]; exact Nat.lt_irrefl _)
    · exact absurd (hlt j hj') (by rw [hr']; exact Nat.lt_irrefl _)
    · exact h.distinct j k r hj' hk'
  undefined r args hcall hvoid hnop := by
    change _ ∈ (s.module.create _ _ _).instructions at hcall
    rw [Module.instructions_create] at hcall
    exact h.undefined r args hcall hvoid hnop

theorem Ahead.declare (h : Ahead d U n s s') {i : Intrinsic} (hi : s.intrinsics i = none) :
    Ahead d U n (s.declare i) (s'.declare i) :=
  { h with
    module := by
      change s'.module.create _ _ _ = _
      rw [h.module]
      exact (s.module.create_shift d _ _ _).symm
    intrinsics := fun j hj ↦ by
      change Function.update s'.intrinsics i _ j = shift d (Function.update s.intrinsics i _ j)
      by_cases hij : j = i
      · subst hij
        rw [Function.update_self, Function.update_self, h.serial, h.module]
        unfold Module.shift
        rw [List.length_map]
        rfl
      · rw [Function.update_of_ne hij, Function.update_of_ne hij]
        exact h.intrinsics j hj
    linked := fun hfresh ↦ (h.linked hfresh).declare hi
    inBlock := (CodegenState.blockCount_create h.inBlock _ _ _).symm ▸ h.inBlock
    bound := (CodegenState.blockCount_create h.inBlock _ _ _).symm ▸ h.bound }

theorem Grows.declare {i : Intrinsic} (hU : U.calls (.intrinsic i)) (hi : s.intrinsics i = none) :
    Grows U s (s.declare i) :=
  { Grows.refl (U := U) s with
    instructions := by
      change _ ⊆ (s.module.create _ _ _).instructions
      rw [Module.instructions_create]
      exact List.Subset.refl _
    signatures := by
      change _ <+: (s.module.create _ _ _).signatures
      rw [Module.signatures_create]
      exact List.prefix_append _ _
    intrinsics := fun j r hr ↦ by
      have hij : j ≠ i := by
        rintro rfl
        cases hi.symm.trans hr
      exact (Function.update_of_ne hij _ _).trans hr
    declared := fun j r hj ↦ by
      rcases CodegenState.declare_intrinsics hj with ⟨rfl, rfl⟩ | ⟨-, hj⟩
      · exact Or.inr ⟨hU, rfl⟩
      · exact Or.inl hj }

/-- What follows may rely on the pointer to the runtime function. -/
theorem follows_intrinsic {i : Intrinsic} (hU : U.calls (.intrinsic i))
    {f f' : FunctionRef → Generate α}
    (h : ∀ r s s', s.intrinsics i = some r → Ahead d U n s s' →
      FollowsAt d U n (f r) (f' (shift d r)) X s s') :
    FollowsAny d U n (intrinsic i >>= f) (intrinsic i >>= f') X := by
  intro s s' hs
  refine Run.Relates.bind (Q := fun r t r' t' ↦ r' = shift d r ∧ t.intrinsics i = some r ∧
    Ahead d U n t t' ∧ Grows U s t) ?_ ?_
  · unfold intrinsic
    refine Run.Relates.bind (Q := fun a t a' t' ↦ t = a ∧ s = a ∧ t' = a' ∧ s' = a')
      (Run.relates_access ⟨rfl, rfl, rfl, rfl⟩) ?_
    rintro s _ s' _ ⟨rfl, rfl, rfl, rfl⟩
    have hi' := hs.intrinsics i hU
    cases hi : s.intrinsics i with
    | some r =>
      rw [hi] at hi'
      rw [hi']
      exact Run.relates_pure ⟨rfl, hi, hs, Grows.refl _⟩
    | none =>
      rw [hi] at hi'
      rw [hi']
      refine Run.Relates.bind (Q := fun r t r' t' ↦ r = ⟨s.serial, s.module.functions.length, .int⟩ ∧
        t = s.create i.symbol [] .int ∧ r' = ⟨s'.serial, s'.module.functions.length, .int⟩ ∧
        t' = s'.create i.symbol [] .int) (Run.relates_access ⟨rfl, rfl, rfl, rfl⟩) ?_
      rintro _ _ _ _ ⟨rfl, rfl, rfl, rfl⟩
      refine Run.Relates.bind (Q := fun _ t _ t' ↦ t = s.declare i ∧ t' = s'.declare i)
        (Run.relates_access ⟨rfl, rfl⟩) ?_
      rintro _ _ _ _ ⟨rfl, rfl⟩
      refine Run.relates_pure ⟨?_, Function.update_self _ _ _, hs.declare hi, Grows.declare hU hi⟩
      rw [hs.serial, hs.module]
      unfold Module.shift
      rw [List.length_map]
      rfl
  · rintro r t _ t' ⟨rfl, hr, hahead, hgrows⟩
    refine (h r t t' hr hahead).mono ?_
    rintro a u a' u' ⟨ha, hahead', hgrows', hX⟩
    exact ⟨ha, hahead', hgrows.trans hgrows', hX⟩

theorem follows_branchOn (condVal : Operand) (l l' : IR.Label) :
    FollowsAny d U n (branchOn condVal l l') (branchOn (shift d condVal) l l') fun _ ↦ False := by
  unfold branchOn
  refine ((follows_emit (.icmp .ne condVal (.const 0))).bind fun condV ↦
    follows_emitUnit (.condBr condV l l')).weaken fun _ ↦ False.elim

end Rules

end Llvm

end Sipc
