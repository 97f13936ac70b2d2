import Sipc.Frontend.AST

/-!
# Type terms

The classes of `semantic/types/concrete`. `TipAlpha` is the subclass of `TipVar` that carries a
calling context and a field name; the proper types are the subclasses of `TipCons`, which keep their
subterms in one vector of arguments, and `TipMu`. Every `TipRecord` of a program lists the same
fields in the same order, and `operator==` and `doMatch` do not look at their names, so a record is
its vector of initialisers.

`operator==` is transcribed per class and shown to decide equality of terms (`beq_iff`), which makes
equality of terms decidable.
-/

set_option autoImplicit false
set_option relaxedAutoImplicit false

namespace Sipc

/-- `TipVar` and its subclass `TipAlpha`. -/
inductive TipVar
  | var (node : NodeId)
  | alpha (node : NodeId) (context : Option NodeId) (name : String)
  deriving DecidableEq, Repr

/-- `TipVar::getNode`. -/
def TipVar.node : TipVar → NodeId
  | .var n => n
  | .alpha n _ _ => n

/-- `TipType` and its subclasses. -/
inductive TipType
  | var (v : TipVar)
  | int
  | bool
  | absentField
  | ref (of : TipType)
  | array (of : TipType)
  | function (params : List TipType) (ret : TipType)
  | record (inits : List TipType)
  | mu (v : TipVar) (t : TipType)
  deriving Repr

/-- The type variable of an AST node. -/
abbrev TipType.tipVar (n : NodeId) : TipType :=
  .var (.var n)

/-- The unnamed alpha of an AST node, without a context. -/
abbrev TipType.tipAlpha (n : NodeId) : TipType :=
  .var (.alpha n none "")

namespace TipType

mutual

/-- `TipType::operator==`, class by class. -/
def beq : TipType → TipType → Bool
  | .var v, .var w => v == w
  | .int, .int => true
  | .bool, .bool => true
  | .absentField, .absentField => true
  | .ref s, .ref t => beq s t
  | .array s, .array t => beq s t
  | .function ps r, .function qs s => beqList ps qs && beq r s
  | .record is, .record js => beqList is js
  | .mu v s, .mu w t => v == w && beq s t
  | _, _ => false

/-- Equality of two argument vectors: the same size and equal at every index. -/
def beqList : List TipType → List TipType → Bool
  | [], [] => true
  | s :: ss, t :: ts => beq s t && beqList ss ts
  | _, _ => false

end

mutual

theorem beq_iff : ∀ s t : TipType, beq s t = true ↔ s = t
  | .var v, t => by cases t <;> simp [beq]
  | .int, t => by cases t <;> simp [beq]
  | .bool, t => by cases t <;> simp [beq]
  | .absentField, t => by cases t <;> simp [beq]
  | .ref s, t => by cases t <;> simp [beq, beq_iff s]
  | .array s, t => by cases t <;> simp [beq, beq_iff s]
  | .function ps r, t => by cases t <;> simp [beq, beqList_iff ps, beq_iff r]
  | .record is, t => by cases t <;> simp [beq, beqList_iff is]
  | .mu v s, t => by cases t <;> simp [beq, beq_iff s]

theorem beqList_iff : ∀ ss ts : List TipType, beqList ss ts = true ↔ ss = ts
  | [], ts => by cases ts <;> simp [beqList]
  | s :: ss, ts => by cases ts <;> simp [beqList, beq_iff s, beqList_iff ss]

end

instance : DecidableEq TipType := fun s t ↦
  decidable_of_iff _ (beq_iff s t)

/-! ### Constructors and arguments -/

/-- `Unifier::isVar`. -/
def isVar : TipType → Bool
  | .var _ => true
  | _ => false

/-- `Unifier::isProperType`. -/
def isProperType (t : TipType) : Bool :=
  !t.isVar

/-- `Unifier::isMu`. -/
def isMu : TipType → Bool
  | .mu _ _ => true
  | _ => false

/-- `Unifier::isCons`. -/
def isCons : TipType → Bool
  | .var _ | .mu _ _ => false
  | _ => true

/-- `TipCons::getArguments`; a function type keeps its parameters and then its result. Terms that
are not a `TipCons` have no arguments. -/
def arguments : TipType → List TipType
  | .ref t | .array t => [t]
  | .function ps r => ps ++ [r]
  | .record is => is
  | .var _ | .int | .bool | .absentField | .mu _ _ => []

/-- `TipCons::arity`. -/
def arity (t : TipType) : ℕ :=
  t.arguments.length

/-- `TipCons::doMatch`. The list of classes does not name `TipBool` and `TipAbsentField`. -/
def doMatch : TipType → TipType → Bool
  | .function ps r, .function qs s => (function qs s).arity == (function ps r).arity
  | .int, .int => true
  | .record is, .record js => (record js).arity == (record is).arity
  | .ref _, .ref _ => true
  | .array _, .array _ => true
  | _, _ => false

/-- The subclasses of `TipCons`. -/
inductive TipCtor
  | int | bool | absentField | ref | array | function | record
  deriving DecidableEq, Repr

/-- The class of a proper type. A recursive type counts as a class of its own: unification never
looks inside it. -/
inductive Head
  | cons (c : TipCtor)
  | mu (v : TipVar) (t : TipType)
  deriving DecidableEq

/-- The class of a proper type, and `none` on a variable. -/
def head : TipType → Option Head
  | .var _ => none
  | .int => some (.cons .int)
  | .bool => some (.cons .bool)
  | .absentField => some (.cons .absentField)
  | .ref _ => some (.cons .ref)
  | .array _ => some (.cons .array)
  | .function _ _ => some (.cons .function)
  | .record _ => some (.cons .record)
  | .mu v t => some (.mu v t)

theorem head_eq_none_iff (t : TipType) : t.head = none ↔ t.isVar = true := by
  cases t <;> simp [head, isVar]

theorem isCons_iff (t : TipType) : t.isCons = true ↔ ∃ c, t.head = some (.cons c) := by
  cases t <;> simp [head, isCons]

/-- A proper type is determined by its class and its arguments. -/
theorem eq_of_head_of_arguments {s t : TipType} (hproper : s.head ≠ none)
    (hhead : s.head = t.head) (h : s.arguments = t.arguments) : s = t := by
  cases s <;> cases t <;> simp [head, arguments] at hproper hhead h ⊢
  all_goals first | exact hhead | exact h

/-- Two distinct terms of the `TipCons` classes match exactly when they have the same class and
arity: `TipBool` and `TipAbsentField` have one term each. -/
theorem doMatch_iff {s t : TipType} (hs : s.isCons = true) (ht : t.isCons = true) (hne : s ≠ t) :
    doMatch s t = true ↔ s.head = t.head ∧ s.arguments.length = t.arguments.length := by
  cases s <;> cases t <;> simp [doMatch, head, arguments, arity, isCons] at hs ht hne ⊢
  all_goals exact eq_comm

/-! ### Subterms -/

mutual

/-- A term, its arguments, their arguments and so on. -/
def subterms : TipType → List TipType
  | .ref t => .ref t :: subterms t
  | .array t => .array t :: subterms t
  | .function ps r => .function ps r :: (subtermsList ps ++ subterms r)
  | .record is => .record is :: subtermsList is
  | t => [t]

/-- The subterms of the terms of a list. -/
def subtermsList : List TipType → List TipType
  | [] => []
  | t :: ts => subterms t ++ subtermsList ts

end

theorem self_mem_subterms (t : TipType) : t ∈ subterms t := by
  cases t <;> simp [subterms]

mutual

/-- The subterms of a term are closed under taking arguments. -/
theorem arguments_subset_subterms :
    ∀ (t : TipType) {s a : TipType}, s ∈ subterms t → a ∈ s.arguments → a ∈ subterms t
  | .var v, s, a, hs, ha => by
    obtain rfl := List.mem_singleton.mp hs
    simp [arguments] at ha
  | .int, s, a, hs, ha => by
    obtain rfl := List.mem_singleton.mp hs
    simp [arguments] at ha
  | .bool, s, a, hs, ha => by
    obtain rfl := List.mem_singleton.mp hs
    simp [arguments] at ha
  | .absentField, s, a, hs, ha => by
    obtain rfl := List.mem_singleton.mp hs
    simp [arguments] at ha
  | .mu v t, s, a, hs, ha => by
    obtain rfl := List.mem_singleton.mp hs
    simp [arguments] at ha
  | .ref t, s, a, hs, ha => by
    refine List.mem_cons_of_mem _ ?_
    rcases List.mem_cons.mp hs with rfl | hs
    · obtain rfl := List.mem_singleton.mp ha
      exact self_mem_subterms a
    · exact arguments_subset_subterms t hs ha
  | .array t, s, a, hs, ha => by
    refine List.mem_cons_of_mem _ ?_
    rcases List.mem_cons.mp hs with rfl | hs
    · obtain rfl := List.mem_singleton.mp ha
      exact self_mem_subterms a
    · exact arguments_subset_subterms t hs ha
  | .function ps r, s, a, hs, ha => by
    refine List.mem_cons_of_mem _ (List.mem_append.mpr ?_)
    rcases List.mem_cons.mp hs with rfl | hs
    · rcases List.mem_append.mp ha with ha | ha
      · exact Or.inl (mem_subtermsList ps ha)
      · obtain rfl := List.mem_singleton.mp ha
        exact Or.inr (self_mem_subterms a)
    · rcases List.mem_append.mp hs with hs | hs
      · exact Or.inl (arguments_subset_subtermsList ps hs ha)
      · exact Or.inr (arguments_subset_subterms r hs ha)
  | .record is, s, a, hs, ha => by
    refine List.mem_cons_of_mem _ ?_
    rcases List.mem_cons.mp hs with rfl | hs
    · exact mem_subtermsList is ha
    · exact arguments_subset_subtermsList is hs ha

theorem arguments_subset_subtermsList :
    ∀ (ts : List TipType) {s a : TipType}, s ∈ subtermsList ts → a ∈ s.arguments →
      a ∈ subtermsList ts
  | t :: ts, s, a, hs, ha => by
    rcases List.mem_append.mp hs with hs | hs
    · exact List.mem_append_left _ (arguments_subset_subterms t hs ha)
    · exact List.mem_append_right _ (arguments_subset_subtermsList ts hs ha)

theorem mem_subtermsList : ∀ (ts : List TipType) {a : TipType}, a ∈ ts → a ∈ subtermsList ts
  | t :: ts, a, ha => by
    rcases List.mem_cons.mp ha with rfl | ha
    · exact List.mem_append_left _ (self_mem_subterms a)
    · exact List.mem_append_right _ (mem_subtermsList ts ha)

end

mutual

/-- A set that holds a term and is closed under arguments holds its subterms. -/
theorem subterms_subset {W : TipType → Prop} (hW : ∀ t, W t → ∀ a ∈ t.arguments, W a) :
    ∀ {t : TipType}, W t → ∀ s ∈ t.subterms, W s
  | .var _, ht, s, hs => List.mem_singleton.mp hs ▸ ht
  | .int, ht, s, hs => List.mem_singleton.mp hs ▸ ht
  | .bool, ht, s, hs => List.mem_singleton.mp hs ▸ ht
  | .absentField, ht, s, hs => List.mem_singleton.mp hs ▸ ht
  | .mu _ _, ht, s, hs => List.mem_singleton.mp hs ▸ ht
  | .ref a, ht, s, hs => by
    rcases List.mem_cons.mp hs with rfl | hs
    · exact ht
    · exact subterms_subset hW (hW _ ht a (by simp [arguments])) s hs
  | .array a, ht, s, hs => by
    rcases List.mem_cons.mp hs with rfl | hs
    · exact ht
    · exact subterms_subset hW (hW _ ht a (by simp [arguments])) s hs
  | .function ps r, ht, s, hs => by
    rcases List.mem_cons.mp hs with rfl | hs
    · exact ht
    rcases List.mem_append.mp hs with hs | hs
    · exact subtermsList_subset hW (fun a ha ↦ hW _ ht a (by simp [arguments, ha])) s hs
    · exact subterms_subset hW (hW _ ht r (by simp [arguments])) s hs
  | .record is, ht, s, hs => by
    rcases List.mem_cons.mp hs with rfl | hs
    · exact ht
    · exact subtermsList_subset hW (fun a ha ↦ hW _ ht a (by simp [arguments, ha])) s hs

theorem subtermsList_subset {W : TipType → Prop} (hW : ∀ t, W t → ∀ a ∈ t.arguments, W a) :
    ∀ {ts : List TipType}, (∀ t ∈ ts, W t) → ∀ s ∈ subtermsList ts, W s
  | t :: ts, hts, s, hs => by
    rcases List.mem_append.mp hs with hs | hs
    · exact subterms_subset hW (hts t List.mem_cons_self) s hs
    · exact subtermsList_subset hW (fun a ha ↦ hts a (List.mem_cons_of_mem _ ha)) s hs

end

/-- No recursive type occurs in the term. -/
def MuFree (t : TipType) : Prop :=
  ∀ s ∈ t.subterms, s.isMu = false

instance (t : TipType) : Decidable t.MuFree :=
  inferInstanceAs (Decidable (∀ s ∈ t.subterms, s.isMu = false))

theorem MuFree.isMu_eq_false {t : TipType} (h : t.MuFree) : t.isMu = false :=
  h t (self_mem_subterms t)

/-- The subterms of a subterm are subterms. -/
theorem subterms_trans {s t : TipType} (h : s ∈ t.subterms) : ∀ r ∈ s.subterms, r ∈ t.subterms :=
  subterms_subset (fun _ hr _ ha ↦ arguments_subset_subterms t hr ha) h

theorem MuFree.of_mem_arguments {t a : TipType} (h : t.MuFree) (ha : a ∈ t.arguments) : a.MuFree :=
  fun s hs ↦ h s (subterms_trans (arguments_subset_subterms t (self_mem_subterms t) ha) s hs)

theorem mem_subtermsList_iff {ts : List TipType} {s : TipType} :
    s ∈ subtermsList ts ↔ ∃ t ∈ ts, s ∈ t.subterms := by
  induction ts with
  | nil => simp [subtermsList]
  | cons t ts ih => simp [subtermsList, ih]

theorem muFree_of_arguments {t : TipType} (ht : t.isMu = false)
    (h : ∀ a ∈ t.arguments, a.MuFree) : t.MuFree := by
  intro s hs
  cases t with
  | mu v t => cases ht
  | ref a | array a =>
    rcases List.mem_cons.1 hs with rfl | hs
    · rfl
    · exact h a (by simp [arguments]) s hs
  | function ps r =>
    rcases List.mem_cons.1 hs with rfl | hs
    · rfl
    rcases List.mem_append.1 hs with hs | hs
    · obtain ⟨p, hp, hs⟩ := mem_subtermsList_iff.1 hs
      exact h p (by simp [arguments, hp]) s hs
    · exact h r (by simp [arguments]) s hs
  | record is =>
    rcases List.mem_cons.1 hs with rfl | hs
    · rfl
    · obtain ⟨p, hp, hs⟩ := mem_subtermsList_iff.1 hs
      exact h p hp s hs
  | _ =>
    obtain rfl := List.mem_singleton.1 hs
    rfl

end TipType

end Sipc
