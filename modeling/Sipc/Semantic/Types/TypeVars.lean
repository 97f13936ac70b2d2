import Sipc.Semantic.Types.CloseOrder

/-!
# The variables that are collected

`solver/TypeVars` collects the variables of a type in a set of pointers. Every occurrence inserts an
object that was just made, and a recursive type erases the pointer to its own variable, which is never in
the set. So the bound variables are collected as well, and every alpha without its context
(`TypeVars.collect_eq`). `TypeVars.collect_iff` says for which types these are the free variables.
-/

set_option autoImplicit false
set_option relaxedAutoImplicit false

namespace Sipc

/-- A type in memory, with the addresses of its variables. -/
inductive TypeObject
  | var (address : ℕ) (v : TipVar)
  | int
  | bool
  | absentField
  | ref (of : TypeObject)
  | array (of : TypeObject)
  | function (params : List TypeObject) (ret : TypeObject)
  | record (inits : List TypeObject)
  | mu (address : ℕ) (v : TipVar) (t : TypeObject)

namespace TypeObject

mutual

/-- The type itself. -/
def type : TypeObject → TipType
  | .var _ v => .var v
  | .int => .int
  | .bool => .bool
  | .absentField => .absentField
  | .ref o => .ref o.type
  | .array o => .array o.type
  | .function ps r => .function (typeList ps) r.type
  | .record is => .record (typeList is)
  | .mu _ v o => .mu v o.type

def typeList : List TypeObject → List TipType
  | [] => []
  | o :: os => o.type :: typeList os

end

mutual

/-- The addresses of the variables. -/
def addresses : TypeObject → List ℕ
  | .var a _ => [a]
  | .int | .bool | .absentField => []
  | .ref o | .array o => o.addresses
  | .function ps r => addressesList ps ++ r.addresses
  | .record is => addressesList is
  | .mu a _ o => a :: o.addresses

def addressesList : List TypeObject → List ℕ
  | [] => []
  | o :: os => o.addresses ++ addressesList os

end

end TypeObject

/-- Where `make_shared` puts an object: at none of the addresses in use. -/
structure Allocator where
  address : List ℕ → ℕ
  address_notMem : ∀ used, address used ∉ used

/-- `std::set<std::shared_ptr<TipVar>>`, which compares addresses. -/
abbrev TypeVars := List (ℕ × TipVar)

namespace TypeVars

/-- `insert`. -/
def insert (a : ℕ) (v : TipVar) (vars : TypeVars) : TypeVars :=
  if a ∈ vars.map Prod.fst then vars else vars ++ [(a, v)]

/-- `erase`. -/
def erase (a : ℕ) (vars : TypeVars) : TypeVars :=
  vars.filter fun x ↦ x.1 ≠ a

section Visitor

variable (alloc : Allocator) (used : List ℕ)

/-- `endVisit` of `TipVar` and `TipAlpha`. The copy of an alpha is made with its node and its name. -/
def endVisitVar (v : TipVar) (vars : TypeVars) : TypeVars :=
  vars.insert (alloc.address (used ++ vars.map Prod.fst)) v.copy

mutual

/-- `accept` of the types, with the `endVisit` methods. The addresses `used` are those of the type. -/
def accept : TypeObject → TypeVars → TypeVars
  | .var _ v, vars => endVisitVar alloc used v vars
  | .int, vars | .bool, vars | .absentField, vars => vars
  | .ref o, vars | .array o, vars => accept o vars
  | .function ps r, vars => accept r (acceptList ps vars)
  | .record is, vars => acceptList is vars
  | .mu a v o, vars => (accept o (endVisitVar alloc used v vars)).erase a

def acceptList : List TypeObject → TypeVars → TypeVars
  | [], vars => vars
  | o :: os, vars => acceptList os (accept o vars)

end

end Visitor

/-- `TypeVars::collect`. -/
def collect (alloc : Allocator) (o : TypeObject) : TypeVars :=
  accept alloc o.addresses o []

/-! ### What is collected -/

section Collected

variable (alloc : Allocator) {used : List ℕ}

/-- The objects of the set are not in the type, and hold these variables. -/
structure Holds (used : List ℕ) (vs : List TipVar) (vars : TypeVars) : Prop where
  fresh : ∀ x ∈ vars, x.1 ∉ used
  holds : vars.map Prod.snd = vs

theorem Holds.endVisitVar {vs : List TipVar} {vars : TypeVars} (h : Holds used vs vars) (v : TipVar) :
    Holds used (vs ++ [v.copy]) (endVisitVar alloc used v vars) := by
  have hfresh := alloc.address_notMem (used ++ vars.map Prod.fst)
  rw [List.mem_append, not_or] at hfresh
  unfold TypeVars.endVisitVar TypeVars.insert
  rw [if_neg hfresh.2]
  refine ⟨fun x hx ↦ ?_, ?_⟩
  · rcases List.mem_append.1 hx with hx | hx
    · exact h.fresh x hx
    · rw [List.mem_singleton.1 hx]
      exact hfresh.1
  · rw [List.map_append, h.holds]
    rfl

/-- The pointer to the variable of a recursive type is not in the set. -/
theorem Holds.erase {vs : List TipVar} {vars : TypeVars} (h : Holds used vs vars) {a : ℕ} (ha : a ∈ used) :
    vars.erase a = vars := by
  unfold TypeVars.erase
  rw [List.filter_eq_self]
  rintro x hx
  exact decide_eq_true fun heq ↦ h.fresh x hx (heq ▸ ha)

mutual

theorem Holds.accept : ∀ (o : TypeObject) {vs : List TipVar} {vars : TypeVars}, Holds used vs vars →
    o.addresses ⊆ used → Holds used (vs ++ o.type.typeVars) (accept alloc used o vars)
  | .var _ v, _, _, h, _ => h.endVisitVar alloc v
  | .int, vs, _, h, _ | .bool, vs, _, h, _ | .absentField, vs, _, h, _ => (List.append_nil vs).symm ▸ h
  | .ref o, _, _, h, hused => Holds.accept o h hused
  | .array o, _, _, h, hused => Holds.accept o h hused
  | .function ps r, vs, vars, h, hused => by
    obtain ⟨hps, hr⟩ := List.append_subset.1 hused
    have hall := Holds.accept r (Holds.acceptList ps h hps) hr
    rwa [List.append_assoc] at hall
  | .record is, _, _, h, hused => Holds.acceptList is h hused
  | .mu a v o, vs, vars, h, hused => by
    obtain ⟨ha, ho⟩ := List.cons_subset.1 hused
    have hall := Holds.accept o (h.endVisitVar alloc v) ho
    rw [TypeVars.accept, hall.erase ha]
    rwa [List.append_assoc, List.singleton_append] at hall

theorem Holds.acceptList : ∀ (os : List TypeObject) {vs : List TipVar} {vars : TypeVars},
    Holds used vs vars → TypeObject.addressesList os ⊆ used →
      Holds used (vs ++ TipType.typeVarsList (TypeObject.typeList os)) (acceptList alloc used os vars)
  | [], vs, _, h, _ => (List.append_nil vs).symm ▸ h
  | o :: os, vs, vars, h, hused => by
    obtain ⟨ho, hos⟩ := List.append_subset.1 hused
    have hall := Holds.acceptList os (Holds.accept o h ho) hos
    rwa [List.append_assoc] at hall

end

/-- The bound variables are collected with the others, and the alphas without their contexts. -/
theorem collect_eq (o : TypeObject) :
    (collect alloc o).map Prod.snd = o.type.typeVars := by
  have hempty : Holds o.addresses [] [] := ⟨nofun, rfl⟩
  exact (Holds.accept alloc o hempty (List.Subset.refl _)).holds

end Collected

end TypeVars

namespace TipType

mutual

/-- A variable that occurs is free or bound somewhere. -/
theorem mem_freeVars_or_binders {v : TipVar} : ∀ t : TipType, v ∈ t.occurrences →
    v ∈ t.freeVars ∨ v ∈ t.binders
  | .var _, h => Or.inl h
  | .int, h | .bool, h | .absentField, h => Or.inl h
  | .ref t, h => mem_freeVars_or_binders t h
  | .array t, h => mem_freeVars_or_binders t h
  | .function ps r, h => by
    rcases List.mem_append.1 h with h | h
    · exact (mem_freeVarsList_or_bindersList ps h).imp (List.mem_append_left _) (List.mem_append_left _)
    · exact (mem_freeVars_or_binders r h).imp (List.mem_append_right _) (List.mem_append_right _)
  | .record is, h => mem_freeVarsList_or_bindersList is h
  | .mu w t, h => by
    by_cases hvw : v = w
    · exact Or.inr (hvw ▸ List.mem_cons_self)
    · have ht : v ∈ t.occurrences := (List.mem_cons.1 h).resolve_left hvw
      exact (mem_freeVars_or_binders t ht).imp (fun hfree ↦ mem_freeVars_mu.2 ⟨hfree, hvw⟩)
        (List.mem_cons_of_mem w)

theorem mem_freeVarsList_or_bindersList {v : TipVar} : ∀ ts : List TipType, v ∈ occurrencesList ts →
    v ∈ freeVarsList ts ∨ v ∈ bindersList ts
  | [], h => Or.inl h
  | t :: ts, h => by
    rcases List.mem_append.1 h with h | h
    · exact (mem_freeVars_or_binders t h).imp (List.mem_append_left _) (List.mem_append_left _)
    · exact (mem_freeVarsList_or_bindersList ts h).imp (List.mem_append_right _)
        (List.mem_append_right _)

end

end TipType

theorem TipVar.copy_copy (v : TipVar) : v.copy.copy = v.copy := by
  cases v <;> rfl

/-- The variables that are collected are the free ones exactly if no free variable has a context, and
every bound variable is free elsewhere, but for the context. -/
theorem TypeVars.collect_iff (alloc : Allocator) (o : TypeObject) :
    (∀ v, v ∈ (collect alloc o).map Prod.snd ↔ v ∈ o.type.freeVars) ↔
      (∀ v ∈ o.type.freeVars, v.copy = v) ∧ ∀ v ∈ o.type.binders, v.copy ∈ o.type.freeVars := by
  rw [collect_eq, TipType.typeVars_eq]
  constructor
  · intro h
    refine ⟨fun v hv ↦ ?_, fun v hv ↦ ?_⟩
    · obtain ⟨w, -, rfl⟩ := List.mem_map.1 ((h v).2 hv)
      exact w.copy_copy
    · exact (h v.copy).1 (List.mem_map_of_mem (o.type.binders_subset_occurrences hv))
  · rintro ⟨hcontexts, hbinders⟩ v
    constructor
    · intro hv
      obtain ⟨w, hw, rfl⟩ := List.mem_map.1 hv
      rcases o.type.mem_freeVars_or_binders hw with hfree | hbound
      · exact (hcontexts w hfree).symm ▸ hfree
      · exact hbinders w hbound
    · intro hv
      exact List.mem_map.2 ⟨v, o.type.freeVars_subset_occurrences hv, hcontexts v hv⟩

/-- One address above all that are in use. -/
def Allocator.above : Allocator where
  address used := used.foldr max 0 + 1
  address_notMem used := by
    have hle : ∀ a ∈ used, a ≤ used.foldr max 0 := by
      induction used with
      | nil => exact nofun
      | cons b used ih =>
        intro a ha
        rcases List.mem_cons.1 ha with rfl | ha
        · exact Nat.le_max_left _ _
        · exact (ih a ha).trans (Nat.le_max_right _ _)
    exact fun h ↦ Nat.not_succ_le_self _ (hle _ h)

/-- The variable of `μα.⭡α`, which is not free, is collected. -/
theorem TypeVars.not_collect_mu : ¬ ∀ v,
    v ∈ (collect .above (.mu 1 (.alpha 0 none "") (.ref (.var 1 (.alpha 0 none ""))))).map Prod.snd ↔
      v ∈ (TipType.mu (.alpha 0 none "") (.ref (.var (.alpha 0 none "")))).freeVars := by
  intro h
  exact absurd (h (.alpha 0 none "")) (by decide)

end Sipc
