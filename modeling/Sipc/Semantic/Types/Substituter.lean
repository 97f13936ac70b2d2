import Sipc.Semantic.Types.Inferred

/-!
# Copies and substitutions

`Substituter` and its subclasses visit a type in post-order and rebuild it from the vector
`visitedTypes` of the subterms visited so far; they differ in what they push for a variable
(`TipType.visit`). Every constructor takes back exactly the subterms that its arguments left, so that
each visitor computes a map of the type (`visit_eq_some`, `visit_substitution`).

`Substituter::substitute` should replace the free occurrences of a variable, and `Copier::copy` nothing.
But a copied alpha loses its context, a binder is replaced like any other occurrence, and nothing is
renamed to keep a free variable from being bound; in every other case the two do what they should
(`substitutesFreely_iff`). `FreshAlphaCopier::copy` gives every alpha one context, so it is a renaming
where no two alphas of the type differ in their contexts only (`renamesAlphas_iff`).
-/

set_option autoImplicit false
set_option relaxedAutoImplicit false

namespace Sipc

namespace TipType

/-! ### The visitors -/

/-- The last `n` types of `visitedTypes`, in the order they were pushed in, and the others. The vector is
kept with its last element first. -/
def popArguments (n : ℕ) (visitedTypes : List TipType) : List TipType × List TipType :=
  ((visitedTypes.take n).reverse, visitedTypes.drop n)

mutual

/-- `TipType::accept` with a `Substituter` that pushes `leaf v` for a variable `v`. A recursive type whose
binder is no variable is not made. -/
def visit (leaf : TipVar → TipType) : TipType → List TipType → Option (List TipType)
  | .var v, visited => some (leaf v :: visited)
  | .int, visited => some (.int :: visited)
  | .bool, visited => some (.bool :: visited)
  | .absentField, visited => some (.absentField :: visited)
  | .ref t, visited => do
    match ← visit leaf t visited with
    | pointedToType :: visited => some (.ref pointedToType :: visited)
    | [] => none
  | .array t, visited => do
    match ← visit leaf t visited with
    | pointedToType :: visited => some (.array pointedToType :: visited)
    | [] => none
  | .function ps r, visited => do
    let visited ← visit leaf r (← visitList leaf ps visited)
    let (argTypes, visited) := popArguments (ps.length + 1) visited
    match argTypes.getLast? with
    | some retType => some (.function argTypes.dropLast retType :: visited)
    | none => none
  | .record is, visited => do
    let (initTypes, visited) := popArguments is.length (← visitList leaf is visited)
    some (.record initTypes :: visited)
  | .mu v t, visited => do
    match ← visit leaf t (leaf v :: visited) with
    | tType :: .var vType :: visited => some (.mu vType tType :: visited)
    | _ => none

/-- `accept` on each type of a vector, in order. -/
def visitList (leaf : TipVar → TipType) : List TipType → List TipType → Option (List TipType)
  | [], visited => some visited
  | t :: ts, visited => do visitList leaf ts (← visit leaf t visited)

end

end TipType

/-- `Substituter::getResult`, after the visit of a type. -/
def Substituter.run (leaf : TipVar → TipType) (t : TipType) : Option TipType :=
  (t.visit leaf []).bind List.head?

/-- `Copier::copy`. -/
def Copier.copy (t : TipType) : Option TipType :=
  Substituter.run (fun v ↦ .var v.copy) t

/-- `FreshAlphaCopier::copy`. -/
def FreshAlphaCopier.copy (t : TipType) (context : NodeId) : Option TipType :=
  Substituter.run (fun v ↦ .var (v.freshCopy context)) t

/-- `Substituter::substitute`. -/
def Substituter.substitute (t : TipType) (target : TipVar) (substitution : TipType) :
    Option TipType :=
  Substituter.run (fun v ↦ if v = target then substitution.copy else .var v.copy) t

namespace TipType

theorem popArguments_append {ts : List TipType} {n : ℕ} (h : ts.length = n) (visited : List TipType) :
    popArguments n (ts.reverse ++ visited) = (ts, visited) := by
  unfold popArguments
  rw [← h, ← List.length_reverse, List.take_left, List.drop_left, List.reverse_reverse]

theorem length_mapVarsList (f : TipVar → TipVar) :
    ∀ ts : List TipType, (mapVarsList f ts).length = ts.length
  | [] => rfl
  | _ :: ts => congrArg (· + 1) (length_mapVarsList f ts)

theorem visit_function {leaf : TipVar → TipType} {ps ps' : List TipType} {r r' : TipType}
    {visited : List TipType} (hps : visitList leaf ps visited = some (ps'.reverse ++ visited))
    (hr : visit leaf r (ps'.reverse ++ visited) = some (r' :: (ps'.reverse ++ visited)))
    (hlength : ps'.length = ps.length) :
    visit leaf (.function ps r) visited = some (.function ps' r' :: visited) := by
  have hpop : popArguments (ps.length + 1) (r' :: (ps'.reverse ++ visited)) =
      (ps' ++ [r'], visited) := by
    have hlength' : (ps' ++ [r']).length = ps.length + 1 := by simp [hlength]
    have := popArguments_append hlength' visited
    rwa [List.reverse_append] at this
  unfold visit
  simp only [hps, hr, hpop, Option.bind_eq_bind, Option.bind_some, List.getLast?_append,
    List.getLast?_singleton, Option.some_or, List.dropLast_concat]

mutual

/-- A visitor that pushes variables for variables pushes the image of the type. -/
theorem visit_eq_some (f : TipVar → TipVar) : ∀ (t : TipType) (visited : List TipType),
    visit (fun v ↦ .var (f v)) t visited = some (t.mapVars f :: visited)
  | .var v, visited => rfl
  | .int, visited => rfl
  | .bool, visited => rfl
  | .absentField, visited => rfl
  | .ref t, visited => by
    unfold visit
    rw [visit_eq_some f t visited]
    rfl
  | .array t, visited => by
    unfold visit
    rw [visit_eq_some f t visited]
    rfl
  | .function ps r, visited =>
    visit_function (visitList_eq_some f ps visited) (visit_eq_some f r _) (length_mapVarsList f ps)
  | .record is, visited => by
    unfold visit
    rw [visitList_eq_some f is visited]
    simp only [Option.bind_eq_bind, Option.bind_some,
      popArguments_append (length_mapVarsList f is) visited]
    rfl
  | .mu v t, visited => by
    unfold visit
    rw [visit_eq_some f t]
    rfl

theorem visitList_eq_some (f : TipVar → TipVar) : ∀ (ts : List TipType) (visited : List TipType),
    visitList (fun v ↦ .var (f v)) ts visited = some ((mapVarsList f ts).reverse ++ visited)
  | [], visited => rfl
  | t :: ts, visited => by
    unfold visitList
    rw [visit_eq_some f t visited]
    change visitList _ ts _ = _
    rw [visitList_eq_some f ts]
    simp [mapVarsList]

end

theorem length_of_substituteList {target : TipVar} {substitution : TipType} :
    ∀ {ts ts' : List TipType}, substituteList target substitution ts = some ts' →
      ts'.length = ts.length
  | [], _, h => by
    obtain rfl := Option.some.inj h
    rfl
  | t :: ts, _, h => by
    obtain ⟨t', -, h⟩ := Option.bind_eq_some_iff.1 h
    obtain ⟨ts', hts, h⟩ := Option.bind_eq_some_iff.1 h
    obtain rfl := Option.some.inj h
    exact congrArg (· + 1) (length_of_substituteList hts)

section Substitution

variable (target : TipVar) (substitution : TipType)

mutual

/-- `Substituter` pushes the type that `substitute` makes, or fails with it. -/
theorem visit_substitution : ∀ (t : TipType) (visited : List TipType),
    visit (fun v ↦ if v = target then substitution.copy else .var v.copy) t visited =
      (substitute target substitution t).map (· :: visited)
  | .var v, visited => rfl
  | .int, visited => rfl
  | .bool, visited => rfl
  | .absentField, visited => rfl
  | .ref t, visited => by
    unfold visit substitute
    rw [visit_substitution t visited]
    cases substitute target substitution t <;> rfl
  | .array t, visited => by
    unfold visit substitute
    rw [visit_substitution t visited]
    cases substitute target substitution t <;> rfl
  | .function ps r, visited => by
    have hps := visitList_substitution ps visited
    cases hps' : substituteList target substitution ps with
    | none =>
      rw [hps'] at hps
      unfold visit substitute
      rw [hps, hps']
      rfl
    | some ps' =>
      rw [hps'] at hps
      have hr := visit_substitution r (ps'.reverse ++ visited)
      cases hr' : substitute target substitution r with
      | none =>
        rw [hr'] at hr
        unfold visit substitute
        rw [hps, hps', hr']
        change (visit _ r (ps'.reverse ++ visited) >>= _) = _
        rw [hr]
        rfl
      | some r' =>
        rw [hr'] at hr
        rw [visit_function hps hr (length_of_substituteList hps')]
        unfold substitute
        rw [hps', hr']
        rfl
  | .record is, visited => by
    unfold visit substitute
    rw [visitList_substitution is visited]
    cases his : substituteList target substitution is with
    | none => rfl
    | some is' =>
      simp only [Option.map_some, Option.bind_eq_bind, Option.bind_some,
        popArguments_append (length_of_substituteList his) visited]
      rfl
  | .mu v t, visited => by
    unfold visit substitute
    rw [visit_substitution t]
    generalize (if v = target then substitution.copy else .var v.copy) = binder
    cases substitute target substitution t <;> cases binder <;> rfl

theorem visitList_substitution : ∀ (ts : List TipType) (visited : List TipType),
    visitList (fun v ↦ if v = target then substitution.copy else .var v.copy) ts visited =
      (substituteList target substitution ts).map fun ts' ↦ ts'.reverse ++ visited
  | [], visited => rfl
  | t :: ts, visited => by
    unfold visitList substituteList
    rw [visit_substitution t visited]
    cases substitute target substitution t with
    | none => rfl
    | some t' =>
      change visitList _ ts (t' :: visited) = _
      rw [visitList_substitution ts]
      cases substituteList target substitution ts with
      | none => rfl
      | some ts' => simp

end

end Substitution

end TipType

/-- What the visitors compute. -/
theorem Copier.copy_eq (t : TipType) : Copier.copy t = some t.copy := by
  rw [Copier.copy, Substituter.run, TipType.visit_eq_some]
  rfl

theorem FreshAlphaCopier.copy_eq (t : TipType) (context : NodeId) :
    FreshAlphaCopier.copy t context = some (t.freshAlphaCopy context) := by
  rw [FreshAlphaCopier.copy, Substituter.run, TipType.visit_eq_some]
  rfl

theorem Substituter.substitute_eq (t : TipType) (target : TipVar) (substitution : TipType) :
    Substituter.substitute t target substitution = TipType.substitute target substitution t := by
  rw [Substituter.substitute, Substituter.run, TipType.visit_substitution]
  cases TipType.substitute target substitution t <;> rfl


/-! ### Free and bound variables -/

namespace TipType

mutual

/-- The variables of a type, at the leaves and at the binders, in the order of the visit. -/
def occurrences : TipType → List TipVar
  | .var v => [v]
  | .int | .bool | .absentField => []
  | .ref t | .array t => occurrences t
  | .function ps r => occurrencesList ps ++ occurrences r
  | .record is => occurrencesList is
  | .mu v t => v :: occurrences t

def occurrencesList : List TipType → List TipVar
  | [] => []
  | t :: ts => occurrences t ++ occurrencesList ts

end

mutual

/-- The variables with an occurrence that no recursive type around it binds. -/
def freeVars : TipType → List TipVar
  | .var v => [v]
  | .int | .bool | .absentField => []
  | .ref t | .array t => freeVars t
  | .function ps r => freeVarsList ps ++ freeVars r
  | .record is => freeVarsList is
  | .mu v t => (freeVars t).filter (· ≠ v)

def freeVarsList : List TipType → List TipVar
  | [] => []
  | t :: ts => freeVars t ++ freeVarsList ts

end

mutual

/-- The binders of a type. -/
def binders : TipType → List TipVar
  | .var _ | .int | .bool | .absentField => []
  | .ref t | .array t => binders t
  | .function ps r => bindersList ps ++ binders r
  | .record is => bindersList is
  | .mu v t => v :: binders t

def bindersList : List TipType → List TipVar
  | [] => []
  | t :: ts => binders t ++ bindersList ts

end

mutual

/-- The type with the free occurrences of `v` replaced by `s`, and nothing else. -/
def replaceFree (v : TipVar) (s : TipType) : TipType → TipType
  | .var w => if w = v then s else .var w
  | .int => .int
  | .bool => .bool
  | .absentField => .absentField
  | .ref t => .ref (replaceFree v s t)
  | .array t => .array (replaceFree v s t)
  | .function ps r => .function (replaceFreeList v s ps) (replaceFree v s r)
  | .record is => .record (replaceFreeList v s is)
  | .mu w t => if w = v then .mu w t else .mu w (replaceFree v s t)

def replaceFreeList (v : TipVar) (s : TipType) : List TipType → List TipType
  | [] => []
  | t :: ts => replaceFree v s t :: replaceFreeList v s ts

end

mutual

/-- No free occurrence of `v` lies under a binder that is free in `s`. -/
def NoCapture (v : TipVar) (s : TipType) : TipType → Prop
  | .var _ | .int | .bool | .absentField => True
  | .ref t | .array t => NoCapture v s t
  | .function ps r => NoCaptureList v s ps ∧ NoCapture v s r
  | .record is => NoCaptureList v s is
  | .mu w t => w = v ∨ ((v ∈ freeVars t → w ∉ freeVars s) ∧ NoCapture v s t)

def NoCaptureList (v : TipVar) (s : TipType) : List TipType → Prop
  | [] => True
  | t :: ts => NoCapture v s t ∧ NoCaptureList v s ts

end

/-- No alpha of the type has a context. -/
def Contextless (t : TipType) : Prop :=
  ∀ v ∈ t.occurrences, v.copy = v

instance (t : TipType) : Decidable t.Contextless :=
  inferInstanceAs (Decidable (∀ v ∈ t.occurrences, v.copy = v))

mutual

theorem mapVars_eq_self_iff {f : TipVar → TipVar} : ∀ t : TipType,
    t.mapVars f = t ↔ ∀ v ∈ t.occurrences, f v = v
  | .var v => by simp [mapVars, occurrences]
  | .int => by simp [mapVars, occurrences]
  | .bool => by simp [mapVars, occurrences]
  | .absentField => by simp [mapVars, occurrences]
  | .ref t => by simp [mapVars, occurrences, mapVars_eq_self_iff t]
  | .array t => by simp [mapVars, occurrences, mapVars_eq_self_iff t]
  | .function ps r => by
    simp [mapVars, occurrences, mapVarsList_eq_self_iff ps, mapVars_eq_self_iff r, or_imp,
      forall_and]
  | .record is => by simp [mapVars, occurrences, mapVarsList_eq_self_iff is]
  | .mu v t => by simp [mapVars, occurrences, mapVars_eq_self_iff t]

theorem mapVarsList_eq_self_iff {f : TipVar → TipVar} : ∀ ts : List TipType,
    mapVarsList f ts = ts ↔ ∀ v ∈ occurrencesList ts, f v = v
  | [] => by simp [mapVarsList, occurrencesList]
  | t :: ts => by
    simp [mapVarsList, occurrencesList, mapVars_eq_self_iff t, mapVarsList_eq_self_iff ts, or_imp,
      forall_and]

end

/-- A copy is the type itself exactly where there is no context to lose. -/
theorem copy_eq_self_iff (t : TipType) : t.copy = t ↔ t.Contextless :=
  mapVars_eq_self_iff t

theorem mem_freeVars_mu {v w : TipVar} {t : TipType} :
    v ∈ (mu w t).freeVars ↔ v ∈ t.freeVars ∧ v ≠ w := by
  rw [freeVars, List.mem_filter, decide_eq_true_iff]

section Replacing

variable {v : TipVar} {s : TipType}

mutual

/-- Nothing is replaced where the variable is not free. -/
theorem replaceFree_of_notMem : ∀ {t : TipType}, v ∉ t.freeVars → replaceFree v s t = t
  | .var _, h => if_neg fun hw ↦ h (List.mem_singleton.2 hw.symm)
  | .int, _ => rfl
  | .bool, _ => rfl
  | .absentField, _ => rfl
  | .ref _, h => congrArg ref (replaceFree_of_notMem h)
  | .array _, h => congrArg array (replaceFree_of_notMem h)
  | .function _ _, h => by
    obtain ⟨hps, hr⟩ := not_or.1 fun hv ↦ h (List.mem_append.2 hv)
    exact congrArg₂ function (replaceFreeList_of_notMem hps) (replaceFree_of_notMem hr)
  | .record _, h => congrArg record (replaceFreeList_of_notMem h)
  | .mu w t, h => by
    unfold replaceFree
    split_ifs with hw
    · rfl
    · have ht : v ∉ t.freeVars := fun hv ↦ h (mem_freeVars_mu.2 ⟨hv, Ne.symm hw⟩)
      rw [replaceFree_of_notMem ht]

theorem replaceFreeList_of_notMem : ∀ {ts : List TipType}, v ∉ freeVarsList ts →
    replaceFreeList v s ts = ts
  | [], _ => rfl
  | _ :: _, h => by
    obtain ⟨ht, hts⟩ := not_or.1 fun hv ↦ h (List.mem_append.2 hv)
    exact congrArg₂ _ (replaceFree_of_notMem ht) (replaceFreeList_of_notMem hts)

end

mutual

/-- Every other variable that is not free in `s` is free where it was. -/
theorem count_freeVars_replaceFree {x : TipVar} (hx : x ∉ s.freeVars) : ∀ t : TipType,
    (replaceFree v s t).freeVars.count x = if x = v then 0 else t.freeVars.count x
  | .var w => by
    unfold replaceFree
    by_cases hw : w = v
    · rw [if_pos hw, List.count_eq_zero_of_not_mem hx]
      by_cases hxv : x = v
      · rw [if_pos hxv]
      · rw [if_neg hxv, freeVars, List.count_eq_zero_of_not_mem]
        exact fun h ↦ hxv ((List.mem_singleton.1 h).trans hw)
    · rw [if_neg hw]
      by_cases hxv : x = v
      · rw [if_pos hxv, freeVars, List.count_eq_zero_of_not_mem]
        exact fun h ↦ hw ((List.mem_singleton.1 h).symm.trans hxv)
      · rw [if_neg hxv]
  | .int => by simp [replaceFree, freeVars]
  | .bool => by simp [replaceFree, freeVars]
  | .absentField => by simp [replaceFree, freeVars]
  | .ref t => count_freeVars_replaceFree hx t
  | .array t => count_freeVars_replaceFree hx t
  | .function ps r => by
    simp only [replaceFree, freeVars, List.count_append, count_freeVars_replaceFreeList hx ps,
      count_freeVars_replaceFree hx r]
    split_ifs <;> rfl
  | .record is => count_freeVars_replaceFreeList hx is
  | .mu w t => by
    unfold replaceFree
    by_cases hw : w = v
    · rw [if_pos hw]
      by_cases hxv : x = v
      · rw [if_pos hxv, List.count_eq_zero_of_not_mem]
        exact fun h ↦ (mem_freeVars_mu.1 h).2 (hxv.trans hw.symm)
      · rw [if_neg hxv]
    · rw [if_neg hw]
      by_cases hxw : x = w
      · have hnone : ∀ t : TipType, (mu w t).freeVars.count x = 0 := fun t ↦
          List.count_eq_zero_of_not_mem fun h ↦ (mem_freeVars_mu.1 h).2 hxw
        rw [hnone, hnone, ite_self]
      · have hsame : ∀ t : TipType, (mu w t).freeVars.count x = t.freeVars.count x := fun t ↦
          List.count_filter (decide_eq_true hxw)
        rw [hsame, hsame]
        exact count_freeVars_replaceFree hx t

theorem count_freeVars_replaceFreeList {x : TipVar} (hx : x ∉ s.freeVars) : ∀ ts : List TipType,
    (freeVarsList (replaceFreeList v s ts)).count x = if x = v then 0 else (freeVarsList ts).count x
  | [] => by simp [replaceFreeList, freeVarsList]
  | t :: ts => by
    simp only [replaceFreeList, freeVarsList, List.count_append, count_freeVars_replaceFree hx t,
      count_freeVars_replaceFreeList hx ts]
    split_ifs <;> rfl

end

/-- What stands for the free occurrence of a variable after the replacement. -/
def inserted (v : TipVar) (s : TipType) (x : TipVar) : List TipVar :=
  if x = v then s.freeVars else [x]

theorem filter_flatMap_inserted_sublist {w : TipVar} (hw : w ≠ v) (l : List TipVar) :
    ((l.flatMap (inserted v s)).filter (· ≠ w)).Sublist
      ((l.filter (· ≠ w)).flatMap (inserted v s)) := by
  induction l with
  | nil => exact List.Sublist.refl _
  | cons x l ih =>
    rw [List.flatMap_cons, List.filter_append]
    by_cases hx : x = w
    · have hnone : (inserted v s x).filter (· ≠ w) = [] := by
        rw [inserted, if_neg fun hxv ↦ hw (hx.symm.trans hxv)]
        exact List.filter_cons_of_neg (by simpa using hx)
      rw [hnone, List.filter_cons_of_neg (by simpa using hx)]
      exact ih
    · rw [List.filter_cons_of_pos (by simpa using hx), List.flatMap_cons]
      exact List.filter_sublist.append ih

mutual

/-- A replacement can only lose free occurrences, to binders that are in the way. -/
theorem freeVars_replaceFree_sublist : ∀ t : TipType,
    (replaceFree v s t).freeVars.Sublist (t.freeVars.flatMap (inserted v s))
  | .var w => by
    rw [freeVars, List.flatMap_singleton, inserted, replaceFree]
    split_ifs
    · exact List.Sublist.refl _
    · exact List.Sublist.refl _
  | .int => List.Sublist.refl _
  | .bool => List.Sublist.refl _
  | .absentField => List.Sublist.refl _
  | .ref t => freeVars_replaceFree_sublist t
  | .array t => freeVars_replaceFree_sublist t
  | .function ps r => by
    unfold freeVars
    rw [List.flatMap_append]
    exact (freeVarsList_replaceFreeList_sublist ps).append (freeVars_replaceFree_sublist r)
  | .record is => freeVarsList_replaceFreeList_sublist is
  | .mu w t => by
    unfold replaceFree
    split_ifs with hw
    · have hsame : ∀ x ∈ (mu w t).freeVars, inserted v s x = [x] := fun x hx ↦
        if_neg fun hxv ↦ (mem_freeVars_mu.1 hx).2 (hxv.trans hw.symm)
      rw [List.flatMap_congr hsame, List.flatMap_singleton']
    · exact ((freeVars_replaceFree_sublist t).filter _).trans
        (filter_flatMap_inserted_sublist hw t.freeVars)

theorem freeVarsList_replaceFreeList_sublist : ∀ ts : List TipType,
    (freeVarsList (replaceFreeList v s ts)).Sublist ((freeVarsList ts).flatMap (inserted v s))
  | [] => List.Sublist.refl _
  | t :: ts => by
    unfold freeVarsList replaceFreeList
    rw [List.flatMap_append]
    exact (freeVars_replaceFree_sublist t).append (freeVarsList_replaceFreeList_sublist ts)

end

/-- A binder that is not free in `s` is not in the way. -/
theorem filter_flatMap_inserted {w : TipVar} (hw : w ≠ v) (hs : w ∉ s.freeVars) (l : List TipVar) :
    (l.flatMap (inserted v s)).filter (· ≠ w) = (l.filter (· ≠ w)).flatMap (inserted v s) ∧
      (l.flatMap (inserted v s)).count w = l.count w := by
  induction l with
  | nil => exact ⟨rfl, rfl⟩
  | cons x l ih =>
    rw [List.flatMap_cons, List.filter_append, List.count_append, ih.1, ih.2]
    by_cases hx : x = w
    · rw [inserted, if_neg fun hxv ↦ hw (hx.symm.trans hxv), hx]
      simp [Nat.add_comm]
    · have hall : ∀ y ∈ inserted v s x, y ≠ w := by
        unfold inserted
        split_ifs
        · exact fun y hy hyw ↦ hs (hyw ▸ hy)
        · exact fun y hy ↦ (List.mem_singleton.1 hy).trans_ne hx
      rw [List.filter_eq_self.2 fun y hy ↦ decide_eq_true (hall y hy),
        List.count_eq_zero_of_not_mem fun h ↦ hall w h rfl,
        List.filter_cons_of_pos (by simpa using hx), List.flatMap_cons, List.count_cons_of_ne hx,
        Nat.zero_add]
      exact ⟨rfl, rfl⟩

theorem append_eq_append_iff_of_sublist {α : Type} {a a' b b' : List α} (ha : a.Sublist a')
    (hb : b.Sublist b') : a ++ b = a' ++ b' ↔ a = a' ∧ b = b' := by
  constructor
  · intro h
    have hlength := congrArg List.length h
    rw [List.length_append, List.length_append] at hlength
    have hla := ha.length_le
    have hlb := hb.length_le
    exact ⟨ha.eq_of_length (by omega), hb.eq_of_length (by omega)⟩
  · rintro ⟨rfl, rfl⟩
    rfl

theorem length_eq_filter_add_count (w : TipVar) (l : List TipVar) :
    l.length = (l.filter (· ≠ w)).length + l.count w := by
  induction l with
  | nil => rfl
  | cons x l ih =>
    by_cases hx : x = w
    · rw [hx, List.filter_cons_of_neg (by simp), List.count_cons_self, List.length_cons, ih]
      rfl
    · rw [List.filter_cons_of_pos (by simpa using hx), List.count_cons_of_ne hx, List.length_cons,
        List.length_cons, ih]
      omega

mutual

/-- Nothing is captured exactly where every free occurrence of `v` becomes the free occurrences of `s`,
and the others stay. -/
theorem noCapture_iff : ∀ t : TipType,
    NoCapture v s t ↔ (replaceFree v s t).freeVars = t.freeVars.flatMap (inserted v s)
  | .var w => by
    rw [NoCapture, true_iff, freeVars, List.flatMap_singleton, inserted, replaceFree]
    split_ifs <;> rfl
  | .int => iff_of_true trivial rfl
  | .bool => iff_of_true trivial rfl
  | .absentField => iff_of_true trivial rfl
  | .ref t => noCapture_iff t
  | .array t => noCapture_iff t
  | .function ps r => by
    rw [NoCapture, noCaptureList_iff ps, noCapture_iff r, replaceFree, freeVars, freeVars,
      List.flatMap_append, append_eq_append_iff_of_sublist (freeVarsList_replaceFreeList_sublist ps)
        (freeVars_replaceFree_sublist r)]
  | .record is => noCaptureList_iff is
  | .mu w t => by
    by_cases hw : w = v
    · refine iff_of_true (Or.inl hw) ?_
      have hsame : ∀ x ∈ (mu w t).freeVars, inserted v s x = [x] := fun x hx ↦
        if_neg fun hxv ↦ (mem_freeVars_mu.1 hx).2 (hxv.trans hw.symm)
      rw [replaceFree, if_pos hw, List.flatMap_congr hsame, List.flatMap_singleton']
    · rw [NoCapture, or_iff_right hw, noCapture_iff t, replaceFree, if_neg hw, freeVars, freeVars]
      by_cases hv : v ∈ t.freeVars
      · by_cases hs : w ∈ s.freeVars
        -- the binder captures a variable of `s`
        · refine iff_of_false (fun h ↦ h.1 hv hs) fun h ↦ ?_
          have hmem : w ∈ (t.freeVars.filter (· ≠ w)).flatMap (inserted v s) := by
            refine List.mem_flatMap.2 ⟨v, List.mem_filter.2 ⟨hv, decide_eq_true (Ne.symm hw)⟩, ?_⟩
            rwa [inserted, if_pos rfl]
          rw [← h] at hmem
          exact of_decide_eq_true (List.mem_filter.1 hmem).2 rfl
        · obtain ⟨hfilter, hcount⟩ := filter_flatMap_inserted hw hs t.freeVars
          rw [← hfilter, and_iff_right fun _ ↦ hs]
          refine ⟨fun h ↦ by rw [h], fun h ↦ (freeVars_replaceFree_sublist t).eq_of_length ?_⟩
          have hsame : (replaceFree v s t).freeVars.count w =
              (t.freeVars.flatMap (inserted v s)).count w := by
            rw [hcount, count_freeVars_replaceFree hs, if_neg hw]
          rw [length_eq_filter_add_count w (replaceFree v s t).freeVars, h, hsame,
            ← length_eq_filter_add_count]
      · have hsame : ∀ l : List TipVar, v ∉ l → l.flatMap (inserted v s) = l := fun l hl ↦
          (List.flatMap_congr fun x hx ↦ if_neg (ne_of_mem_of_not_mem hx hl)).trans
            (List.flatMap_singleton' l)
        rw [replaceFree_of_notMem hv, hsame _ hv, hsame _ fun h ↦ hv (List.mem_filter.1 h).1]
        exact iff_of_true ⟨fun h ↦ absurd h hv, rfl⟩ rfl

theorem noCaptureList_iff : ∀ ts : List TipType,
    NoCaptureList v s ts ↔
      freeVarsList (replaceFreeList v s ts) = (freeVarsList ts).flatMap (inserted v s)
  | [] => iff_of_true trivial rfl
  | t :: ts => by
    rw [NoCaptureList, noCapture_iff t, noCaptureList_iff ts, replaceFreeList, freeVarsList,
      freeVarsList, List.flatMap_append,
      append_eq_append_iff_of_sublist (freeVars_replaceFree_sublist t)
        (freeVarsList_replaceFreeList_sublist ts)]

end

mutual

theorem binders_subset_occurrences : ∀ t : TipType, t.binders ⊆ t.occurrences
  | .var _ => List.nil_subset _
  | .int | .bool | .absentField => List.nil_subset _
  | .ref t => binders_subset_occurrences t
  | .array t => binders_subset_occurrences t
  | .function ps r => fun _ hv ↦ List.mem_append.2 ((List.mem_append.1 hv).imp
      (fun h ↦ bindersList_subset_occurrencesList ps h) fun h ↦ binders_subset_occurrences r h)
  | .record is => bindersList_subset_occurrencesList is
  | .mu _ t => fun _ hv ↦ List.mem_cons.2 ((List.mem_cons.1 hv).imp_right
      fun h ↦ binders_subset_occurrences t h)

theorem bindersList_subset_occurrencesList : ∀ ts : List TipType,
    bindersList ts ⊆ occurrencesList ts
  | [] => List.nil_subset _
  | t :: ts => fun _ hv ↦ List.mem_append.2 ((List.mem_append.1 hv).imp
      (fun h ↦ binders_subset_occurrences t h) fun h ↦ bindersList_subset_occurrencesList ts h)

end

/-! ### What `Substituter` replaces -/

mutual

/-- A variable is replaced by itself. -/
theorem substitute_of_copy_eq (hs : s.copy = .var v.copy) : ∀ t : TipType,
    substitute v s t = some t.copy
  | .var w => by
    unfold substitute
    split_ifs with hw
    · rw [hs, hw]
      rfl
    · rfl
  | .int => rfl
  | .bool => rfl
  | .absentField => rfl
  | .ref t => by
    rw [substitute, substitute_of_copy_eq hs t]
    rfl
  | .array t => by
    rw [substitute, substitute_of_copy_eq hs t]
    rfl
  | .function ps r => by
    rw [substitute, substituteList_of_copy_eq hs ps, substitute_of_copy_eq hs r]
    rfl
  | .record is => by
    rw [substitute, substituteList_of_copy_eq hs is]
    rfl
  | .mu w t => by
    unfold substitute
    rw [substitute_of_copy_eq hs t, hs]
    split_ifs with hw
    · rw [← hw]
      rfl
    · rfl

theorem substituteList_of_copy_eq (hs : s.copy = .var v.copy) : ∀ ts : List TipType,
    substituteList v s ts = some (mapVarsList TipVar.copy ts)
  | [] => rfl
  | t :: ts => by
    rw [substituteList, substitute_of_copy_eq hs t, substituteList_of_copy_eq hs ts]
    rfl

end

mutual

/-- Where no context gets lost, and no binder is replaced by another type, exactly the free occurrences
are replaced. -/
theorem substitute_eq_replaceFree : ∀ {t : TipType}, (∀ w ∈ t.occurrences, w.copy = w) →
    (v ∈ t.freeVars → s.copy = s) → (v ∈ t.binders → s.copy = .var v) →
    substitute v s t = some (replaceFree v s t)
  | .var w, ht, hs, _ => by
    unfold substitute replaceFree
    split_ifs with hw
    · rw [hs (List.mem_singleton.2 hw.symm)]
    · rw [ht w (List.mem_singleton_self _)]
  | .int, _, _, _ => rfl
  | .bool, _, _, _ => rfl
  | .absentField, _, _, _ => rfl
  | .ref t, ht, hs, hb => by
    have h : substitute v s t = _ := substitute_eq_replaceFree ht hs hb
    rw [substitute, h]
    rfl
  | .array t, ht, hs, hb => by
    have h : substitute v s t = _ := substitute_eq_replaceFree ht hs hb
    rw [substitute, h]
    rfl
  | .function _ _, ht, hs, hb => by
    obtain ⟨htps, htr⟩ := List.forall_mem_append.1 ht
    rw [substitute, substituteList_eq_replaceFree htps (fun h ↦ hs (List.mem_append_left _ h))
      fun h ↦ hb (List.mem_append_left _ h), substitute_eq_replaceFree htr
      (fun h ↦ hs (List.mem_append_right _ h)) fun h ↦ hb (List.mem_append_right _ h)]
    rfl
  | .record _, ht, hs, hb => by
    rw [substitute, substituteList_eq_replaceFree ht hs hb]
    rfl
  | .mu w t, ht, hs, hb => by
    obtain ⟨hw, ht⟩ := List.forall_mem_cons.1 ht
    unfold substitute replaceFree
    by_cases hwv : w = v
    · have hsv := hb (List.mem_cons.2 (Or.inl hwv.symm))
      have hcopy : s.copy = .var v.copy := by rw [hsv, ← hwv, hw]
      rw [if_pos hwv, if_pos hwv, substitute_of_copy_eq hcopy, (copy_eq_self_iff t).2 ht, hsv, hwv]
      rfl
    · have hbody := substitute_eq_replaceFree ht (fun h ↦ hs (mem_freeVars_mu.2 ⟨h, Ne.symm hwv⟩))
        fun h ↦ hb (List.mem_cons_of_mem _ h)
      rw [if_neg hwv, if_neg hwv, hbody, hw]
      rfl

theorem substituteList_eq_replaceFree : ∀ {ts : List TipType},
    (∀ w ∈ occurrencesList ts, w.copy = w) → (v ∈ freeVarsList ts → s.copy = s) →
    (v ∈ bindersList ts → s.copy = .var v) →
    substituteList v s ts = some (replaceFreeList v s ts)
  | [], _, _, _ => rfl
  | _ :: _, ht, hs, hb => by
    obtain ⟨htt, htts⟩ := List.forall_mem_append.1 ht
    rw [substituteList, substitute_eq_replaceFree htt (fun h ↦ hs (List.mem_append_left _ h))
      fun h ↦ hb (List.mem_append_left _ h), substituteList_eq_replaceFree htts
      (fun h ↦ hs (List.mem_append_right _ h)) fun h ↦ hb (List.mem_append_right _ h)]
    rfl

end

mutual

/-- What is replaced tells the copy of `s`. -/
theorem copy_of_substitute : ∀ {t : TipType}, substitute v s t = some (replaceFree v s t) →
    (v ∈ t.freeVars → s.copy = s) ∧ (v ∈ t.binders → s.copy = .var v)
  | .var w, h => by
    refine ⟨fun hv ↦ ?_, fun hv ↦ nomatch hv⟩
    have hw : w = v := (List.mem_singleton.1 hv).symm
    unfold substitute replaceFree at h
    rw [if_pos hw, if_pos hw] at h
    exact Option.some.inj h
  | .int, _ => ⟨fun hv ↦ (nomatch hv), fun hv ↦ (nomatch hv)⟩
  | .bool, _ => ⟨fun hv ↦ (nomatch hv), fun hv ↦ (nomatch hv)⟩
  | .absentField, _ => ⟨fun hv ↦ (nomatch hv), fun hv ↦ (nomatch hv)⟩
  | .ref t, h => by
    obtain ⟨t', ht, h⟩ := Option.bind_eq_some_iff.1 h
    rw [ref.inj (Option.some.inj h)] at ht
    have h' : _ ∧ _ := copy_of_substitute ht
    exact h'
  | .array t, h => by
    obtain ⟨t', ht, h⟩ := Option.bind_eq_some_iff.1 h
    rw [array.inj (Option.some.inj h)] at ht
    have h' : _ ∧ _ := copy_of_substitute ht
    exact h'
  | .function ps r, h => by
    obtain ⟨ps', hps, h⟩ := Option.bind_eq_some_iff.1 h
    obtain ⟨r', hr, h⟩ := Option.bind_eq_some_iff.1 h
    obtain ⟨rfl, rfl⟩ := function.inj (Option.some.inj h)
    obtain ⟨hfps, hbps⟩ := copy_of_substituteList hps
    obtain ⟨hfr, hbr⟩ := copy_of_substitute hr
    exact ⟨fun hv ↦ (List.mem_append.1 hv).elim hfps hfr,
      fun hv ↦ (List.mem_append.1 hv).elim hbps hbr⟩
  | .record is, h => by
    obtain ⟨is', his, h⟩ := Option.bind_eq_some_iff.1 h
    obtain rfl := record.inj (Option.some.inj h)
    exact copy_of_substituteList his
  | .mu w t, h => by
    unfold substitute replaceFree at h
    by_cases hw : w = v
    · rw [if_pos hw, if_pos hw] at h
      have hcopy : s.copy = .var v := by
        cases hs : s.copy with
        | var w' =>
          rw [hs] at h
          obtain ⟨t', -, h⟩ := Option.bind_eq_some_iff.1 h
          rw [(mu.inj (Option.some.inj h)).1, hw]
        | _ =>
          rw [hs] at h
          cases h
      exact ⟨fun hv ↦ absurd hw.symm (mem_freeVars_mu.1 hv).2, fun _ ↦ hcopy⟩
    · rw [if_neg hw, if_neg hw] at h
      obtain ⟨t', ht, h⟩ := Option.bind_eq_some_iff.1 h
      obtain ⟨-, rfl⟩ := mu.inj (Option.some.inj h)
      obtain ⟨hf, hb⟩ := copy_of_substitute ht
      exact ⟨fun hv ↦ hf (mem_freeVars_mu.1 hv).1, fun hv ↦ hb
        ((List.mem_cons.1 hv).resolve_left (Ne.symm hw))⟩

theorem copy_of_substituteList : ∀ {ts : List TipType},
    substituteList v s ts = some (replaceFreeList v s ts) →
    (v ∈ freeVarsList ts → s.copy = s) ∧ (v ∈ bindersList ts → s.copy = .var v)
  | [], _ => ⟨fun hv ↦ (nomatch hv), fun hv ↦ (nomatch hv)⟩
  | t :: ts, h => by
    obtain ⟨t', ht, h⟩ := Option.bind_eq_some_iff.1 h
    obtain ⟨ts', hts, h⟩ := Option.bind_eq_some_iff.1 h
    obtain ⟨rfl, rfl⟩ := List.cons.inj (Option.some.inj h)
    obtain ⟨hft, hbt⟩ := copy_of_substitute ht
    obtain ⟨hfts, hbts⟩ := copy_of_substituteList hts
    exact ⟨fun hv ↦ (List.mem_append.1 hv).elim hft hfts,
      fun hv ↦ (List.mem_append.1 hv).elim hbt hbts⟩

end

end Replacing

end TipType

/-- `Copier::copy` copies, and `Substituter::substitute` replaces exactly the free occurrences of `v`:
each leaves the free variables of `s` free, and there is a result. -/
structure SubstitutesFreely (t : TipType) (v : TipVar) (s : TipType) : Prop where
  copy : Copier.copy t = some t
  substitute : ∃ r, Substituter.substitute t v s = some r ∧ (v ∉ t.freeVars → r = t) ∧
    r = TipType.replaceFree v s t ∧
    r.freeVars = t.freeVars.flatMap (fun x ↦ if x = v then s.freeVars else [x]) ∧
    (v ∉ s.freeVars → v ∉ r.freeVars)

/-- The copier and the substituter do what they should exactly if no alpha of the type, and of the
replacement where it is used, has a context to lose, a binder `v` would be replaced by itself, and no
free occurrence of `v` lies under a binder that is free in `s`. -/
theorem substitutesFreely_iff (t : TipType) (v : TipVar) (s : TipType) :
    SubstitutesFreely t v s ↔ t.Contextless ∧ (v ∈ t.freeVars → s.Contextless) ∧
      (v ∈ t.binders → s.copy = .var v) ∧ TipType.NoCapture v s t := by
  constructor
  · rintro ⟨hcopy, r, hr, -, rfl, hfree, -⟩
    rw [Copier.copy_eq] at hcopy
    rw [Substituter.substitute_eq] at hr
    obtain ⟨hs, hb⟩ := TipType.copy_of_substitute hr
    exact ⟨(TipType.copy_eq_self_iff t).1 (Option.some.inj hcopy),
      fun hv ↦ (TipType.copy_eq_self_iff s).1 (hs hv), hb, (TipType.noCapture_iff t).2 hfree⟩
  · rintro ⟨ht, hs, hb, hcapture⟩
    refine ⟨?_, TipType.replaceFree v s t, ?_, TipType.replaceFree_of_notMem, rfl,
      (TipType.noCapture_iff t).1 hcapture, fun hv ↦ ?_⟩
    · rw [Copier.copy_eq, (TipType.copy_eq_self_iff t).2 ht]
    · rw [Substituter.substitute_eq]
      exact TipType.substitute_eq_replaceFree ht
        (fun hv ↦ (TipType.copy_eq_self_iff s).2 (hs hv)) hb
    · rw [← List.count_eq_zero, TipType.count_freeVars_replaceFree hv, if_pos rfl]

/-- The copy of an alpha with a context has none. -/
theorem not_substitutesFreely_alpha :
    ¬ SubstitutesFreely (.var (.alpha 1 (some 2) "")) (.var 3) .int := by
  intro h
  have hcopy := h.copy
  rw [Copier.copy_eq] at hcopy
  revert hcopy
  decide

/-! ### Instances of polymorphic types -/

namespace TipVar

def isAlpha : TipVar → Bool
  | .var _ => false
  | .alpha _ _ _ => true

/-- The variable, if it is no alpha. -/
def forgetAlpha : TipVar → TipVar
  | .var n => .var n
  | .alpha _ _ _ => .alpha 0 none ""

end TipVar

namespace TipType

mutual

/-- For each occurrence of a variable at a leaf the number of recursive types between it and the one that
binds it, and `none` for a free occurrence. -/
def bindings (around : List TipVar) : TipType → List (Option ℕ)
  | .var v => [around.idxOf? v]
  | .int | .bool | .absentField => []
  | .ref t | .array t => bindings around t
  | .function ps r => bindingsList around ps ++ bindings around r
  | .record is => bindingsList around is
  | .mu v t => bindings (v :: around) t

def bindingsList (around : List TipVar) : List TipType → List (Option ℕ)
  | [] => []
  | t :: ts => bindings around t ++ bindingsList around ts

end

mutual

theorem occurrences_mapVars (f : TipVar → TipVar) : ∀ t : TipType,
    (t.mapVars f).occurrences = t.occurrences.map f
  | .var _ | .int | .bool | .absentField => rfl
  | .ref t => occurrences_mapVars f t
  | .array t => occurrences_mapVars f t
  | .function ps r => by
    rw [mapVars, occurrences, occurrences, List.map_append, occurrencesList_mapVarsList f ps,
      occurrences_mapVars f r]
  | .record is => occurrencesList_mapVarsList f is
  | .mu v t => congrArg (f v :: ·) (occurrences_mapVars f t)

theorem occurrencesList_mapVarsList (f : TipVar → TipVar) : ∀ ts : List TipType,
    occurrencesList (mapVarsList f ts) = (occurrencesList ts).map f
  | [] => rfl
  | t :: ts => by
    rw [mapVarsList, occurrencesList, occurrencesList, List.map_append, occurrences_mapVars f t,
      occurrencesList_mapVarsList f ts]

end

mutual

theorem mapVars_mapVars (f g : TipVar → TipVar) : ∀ t : TipType,
    (t.mapVars f).mapVars g = t.mapVars (g ∘ f)
  | .var _ | .int | .bool | .absentField => rfl
  | .ref t => congrArg ref (mapVars_mapVars f g t)
  | .array t => congrArg array (mapVars_mapVars f g t)
  | .function ps r => congrArg₂ function (mapVarsList_mapVarsList f g ps) (mapVars_mapVars f g r)
  | .record is => congrArg record (mapVarsList_mapVarsList f g is)
  | .mu v t => congrArg (mu (g (f v))) (mapVars_mapVars f g t)

theorem mapVarsList_mapVarsList (f g : TipVar → TipVar) : ∀ ts : List TipType,
    mapVarsList g (mapVarsList f ts) = mapVarsList (g ∘ f) ts
  | [] => rfl
  | t :: ts => congrArg₂ List.cons (mapVars_mapVars f g t) (mapVarsList_mapVarsList f g ts)

end

mutual

theorem freeVars_subset_occurrences : ∀ t : TipType, t.freeVars ⊆ t.occurrences
  | .var _ => List.Subset.refl _
  | .int | .bool | .absentField => List.nil_subset _
  | .ref t => freeVars_subset_occurrences t
  | .array t => freeVars_subset_occurrences t
  | .function ps r => fun _ hv ↦ List.mem_append.2 ((List.mem_append.1 hv).imp
      (fun h ↦ freeVarsList_subset_occurrencesList ps h) fun h ↦ freeVars_subset_occurrences r h)
  | .record is => freeVarsList_subset_occurrencesList is
  | .mu _ t => fun _ hv ↦
      List.mem_cons_of_mem _ (freeVars_subset_occurrences t (mem_freeVars_mu.1 hv).1)

theorem freeVarsList_subset_occurrencesList : ∀ ts : List TipType,
    freeVarsList ts ⊆ occurrencesList ts
  | [] => List.nil_subset _
  | t :: ts => fun _ hv ↦ List.mem_append.2 ((List.mem_append.1 hv).imp
      (fun h ↦ freeVars_subset_occurrences t h) fun h ↦ freeVarsList_subset_occurrencesList ts h)

end

theorem idxOf?_map {f : TipVar → TipVar} {v : TipVar} :
    ∀ {around : List TipVar}, (∀ w ∈ around, f w = f v → w = v) →
      (around.map f).idxOf? (f v) = around.idxOf? v
  | [], _ => rfl
  | w :: around, h => by
    obtain ⟨hw, haround⟩ := List.forall_mem_cons.1 h
    rw [List.map_cons, List.idxOf?_cons, List.idxOf?_cons, idxOf?_map haround]
    by_cases hwv : w = v
    · rw [hwv, beq_self_eq_true, beq_self_eq_true]
    · rw [beq_false_of_ne hwv, beq_false_of_ne fun hf ↦ hwv (hw hf)]

section Bindings

variable {f : TipVar → TipVar} {V : TipVar → Prop}

mutual

/-- A renaming that identifies no two variables changes no binding. -/
theorem bindings_mapVars (hf : ∀ v w, V v → V w → f v = f w → v = w) :
    ∀ (t : TipType) (around : List TipVar), (∀ v ∈ around, V v) → (∀ v ∈ t.occurrences, V v) →
      (t.mapVars f).bindings (around.map f) = t.bindings around
  | .var v, around, haround, ht => by
    have hv := ht v (List.mem_singleton_self _)
    rw [mapVars, bindings, bindings, idxOf?_map fun w hw hwv ↦ hf w v (haround w hw) hv hwv]
  | .int, _, _, _ => rfl
  | .bool, _, _, _ => rfl
  | .absentField, _, _, _ => rfl
  | .ref t, around, haround, ht => bindings_mapVars hf t around haround ht
  | .array t, around, haround, ht => bindings_mapVars hf t around haround ht
  | .function ps r, around, haround, ht => by
    obtain ⟨hps, hr⟩ := List.forall_mem_append.1 ht
    rw [mapVars, bindings, bindings, bindingsList_mapVarsList hf ps around haround hps,
      bindings_mapVars hf r around haround hr]
  | .record is, around, haround, ht => bindingsList_mapVarsList hf is around haround ht
  | .mu v t, around, haround, ht => by
    obtain ⟨hv, ht⟩ := List.forall_mem_cons.1 ht
    exact bindings_mapVars hf t (v :: around) (List.forall_mem_cons.2 ⟨hv, haround⟩) ht

theorem bindingsList_mapVarsList (hf : ∀ v w, V v → V w → f v = f w → v = w) :
    ∀ (ts : List TipType) (around : List TipVar), (∀ v ∈ around, V v) →
      (∀ v ∈ occurrencesList ts, V v) →
      bindingsList (around.map f) (mapVarsList f ts) = bindingsList around ts
  | [], _, _, _ => rfl
  | t :: ts, around, haround, hts => by
    obtain ⟨ht, hts⟩ := List.forall_mem_append.1 hts
    rw [mapVarsList, bindingsList, bindingsList, bindings_mapVars hf t around haround ht,
      bindingsList_mapVarsList hf ts around haround hts]

end

end Bindings

end TipType

/-- `FreshAlphaCopier::copy` renames the alphas of a type: nothing else differs, alphas are equal where
they were, and bound where they were, and an alpha that is free in the copy is free in no copy for
another call. -/
structure RenamesAlphas (t : TipType) (context : NodeId) : Prop where
  copy : ∃ r, FreshAlphaCopier.copy t context = some r ∧
    r.mapVars TipVar.forgetAlpha = t.mapVars TipVar.forgetAlpha ∧
    (∀ i j : ℕ, ∀ v w, t.occurrences[i]? = some v → t.occurrences[j]? = some w → v.isAlpha →
      w.isAlpha → (r.occurrences[i]? = r.occurrences[j]? ↔ v = w)) ∧
    r.bindings [] = t.bindings [] ∧
    ∀ t' r' context', FreshAlphaCopier.copy t' context' = some r' → context' ≠ context →
      ∀ v ∈ r.freeVars, v.isAlpha → v ∉ r'.freeVars

/-- The context tells apart no two alphas of the type. -/
def TipType.OneContext (t : TipType) : Prop :=
  ∀ n name c c', .alpha n c name ∈ t.occurrences → .alpha n c' name ∈ t.occurrences → c = c'

theorem TipVar.eq_of_freshCopy_eq {t : TipType} (ht : t.OneContext) {context : NodeId}
    {v w : TipVar} (hv : v ∈ t.occurrences) (hw : w ∈ t.occurrences)
    (h : v.freshCopy context = w.freshCopy context) : v = w := by
  cases v with
  | var n =>
    cases w with
    | var m => exact h
    | alpha m c name => cases h
  | alpha n c name =>
    cases w with
    | var m => cases h
    | alpha m c' name' =>
      obtain ⟨rfl, -, rfl⟩ := TipVar.alpha.inj h
      rw [ht n name c c' hv hw]

/-- The alphas of a copy have the context of the copy. -/
theorem TipType.context_of_mem_freeVars {t : TipType} {context n : NodeId} {c : Option NodeId}
    {name : String} (h : .alpha n c name ∈ (t.freshAlphaCopy context).freeVars) :
    c = some context := by
  have hmem := TipType.freeVars_subset_occurrences _ h
  rw [TipType.freshAlphaCopy, TipType.occurrences_mapVars] at hmem
  obtain ⟨v, -, hv⟩ := List.mem_map.1 hmem
  cases v with
  | var m => cases hv
  | alpha m c' name' => exact (TipVar.alpha.inj hv).2.1.symm

/-- The copy for a call is a renaming of the alphas exactly if no two alphas of the type differ in their
contexts only. -/
theorem renamesAlphas_iff (t : TipType) (context : NodeId) :
    RenamesAlphas t context ↔ t.OneContext := by
  constructor
  · rintro ⟨r, hr, -, hequal, -⟩ n name c c' hc hc'
    rw [FreshAlphaCopier.copy_eq] at hr
    obtain rfl := Option.some.inj hr
    obtain ⟨i, hi⟩ := List.getElem?_of_mem hc
    obtain ⟨j, hj⟩ := List.getElem?_of_mem hc'
    have h := hequal i j _ _ hi hj rfl rfl
    rw [TipType.freshAlphaCopy, TipType.occurrences_mapVars, List.getElem?_map, List.getElem?_map,
      hi, hj] at h
    exact (TipVar.alpha.inj (h.1 rfl)).2.1
  · intro ht
    refine ⟨t.freshAlphaCopy context, FreshAlphaCopier.copy_eq t context, ?_, ?_, ?_, ?_⟩
    · have hforget : TipVar.forgetAlpha ∘ TipVar.freshCopy context = TipVar.forgetAlpha := by
        funext v
        cases v <;> rfl
      rw [TipType.freshAlphaCopy, TipType.mapVars_mapVars, hforget]
    · intro i j v w hv hw _ _
      rw [TipType.freshAlphaCopy, TipType.occurrences_mapVars, List.getElem?_map,
        List.getElem?_map, hv, hw, Option.map_some, Option.map_some, Option.some.injEq]
      exact ⟨TipVar.eq_of_freshCopy_eq ht (List.mem_of_getElem? hv) (List.mem_of_getElem? hw),
        congrArg _⟩
    · exact TipType.bindings_mapVars (fun _ _ hv hw ↦ TipVar.eq_of_freshCopy_eq ht hv hw) t []
        (fun _ h ↦ nomatch h) fun _ h ↦ h
    · intro t' r' context' hr' hne v hv halpha hv'
      rw [FreshAlphaCopier.copy_eq] at hr'
      obtain rfl := Option.some.inj hr'
      cases v with
      | var n => cases halpha
      | alpha n c name =>
        refine hne (Option.some.inj ?_)
        rw [← TipType.context_of_mem_freeVars hv', ← TipType.context_of_mem_freeVars hv]

/-- Two alphas of one node from two calls become one. -/
theorem not_renamesAlphas_of_two_calls :
    ¬ RenamesAlphas
      (.function [.var (.alpha 1 (some 5) "")] (.var (.alpha 1 (some 6) ""))) 7 := by
  rintro ⟨r, hr, -, hequal, -⟩
  rw [FreshAlphaCopier.copy_eq] at hr
  obtain rfl := Option.some.inj hr
  have h := (hequal 0 1 _ _ rfl rfl rfl rfl).1 rfl
  revert h
  decide

end Sipc
