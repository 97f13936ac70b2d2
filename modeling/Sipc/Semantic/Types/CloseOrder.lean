import Sipc.Frontend.Token
import Sipc.Semantic.Types.Substituter
import Sipc.Semantic.Types.TypeInference
import Sipc.Semantic.Types.TypeConstraintUnifyVisitor

/-!
# The order of the variables in `close`

`close` replaces the variables of a constructor one after the other, in the order of their addresses,
and a variable that one replacement brings in may be the target of a later one. Closed types hold
unnamed alphas only (`Closed`), and a constructor in the constraints of a program has no other
variable beside an unnamed alpha (`Closable`). So all the variables are replaced at once, whatever the
order (`closeArguments_eq`), and `inferred` gives one type (`Unifier.inferred_order`).
-/

set_option autoImplicit false
set_option relaxedAutoImplicit false

namespace Sipc

open TipType

/-- An alpha without a context and without a field name, like every variable that `close` makes. -/
def TipVar.IsBare (v : TipVar) : Prop :=
  ∃ n, v = .alpha n none ""

theorem TipVar.IsBare.copy {v : TipVar} (h : v.IsBare) : v.copy = v := by
  obtain ⟨n, rfl⟩ := h
  rfl

theorem TipVar.IsBare.closedName {v : TipVar} (h : v.IsBare) : v.closedName = v := by
  obtain ⟨n, rfl⟩ := h
  rfl

namespace TipType

/-- A type with the variables of closed types only. -/
def Closed (t : TipType) : Prop :=
  ∀ v ∈ t.occurrences, v.IsBare

/-- A term of the constraints of a program. If there is an unnamed alpha in it, it is the only
variable. -/
structure Closable (t : TipType) : Prop where
  shallow : t.Shallow
  contextless : t.Contextless
  alone : ∀ v ∈ t.occurrences, v.IsBare → t.occurrences = [v]

theorem Closed.contextless {t : TipType} (h : t.Closed) : t.Contextless :=
  fun v hv ↦ (h v hv).copy

theorem closed_tipAlpha (n : NodeId) : (TipType.tipAlpha n).Closed := by
  intro v hv
  exact ⟨n, List.mem_singleton.1 hv⟩

mutual

theorem typeVars_eq : ∀ t : TipType, t.typeVars = t.occurrences.map TipVar.copy
  | .var _ => rfl
  | .int | .bool | .absentField => rfl
  | .ref t => typeVars_eq t
  | .array t => typeVars_eq t
  | .function ps r => by
    rw [typeVars, occurrences, List.map_append, typeVarsList_eq ps, typeVars_eq r]
  | .record is => typeVarsList_eq is
  | .mu v t => congrArg (v.copy :: ·) (typeVars_eq t)

theorem typeVarsList_eq : ∀ ts : List TipType,
    typeVarsList ts = (occurrencesList ts).map TipVar.copy
  | [] => rfl
  | t :: ts => by
    rw [typeVarsList, occurrencesList, List.map_append, typeVars_eq t, typeVarsList_eq ts]

end

theorem Contextless.typeVars {t : TipType} (h : t.Contextless) : t.typeVars = t.occurrences := by
  rw [typeVars_eq]
  exact (List.map_congr_left h).trans (List.map_id _)

theorem occurrencesList_eq_flatMap (ts : List TipType) :
    occurrencesList ts = ts.flatMap occurrences := by
  induction ts with
  | nil => rfl
  | cons t ts ih => rw [occurrencesList, List.flatMap_cons, ih]

theorem occurrences_cons {t : TipType} (ht : t.isCons = true) :
    t.occurrences = t.arguments.flatMap occurrences := by
  cases t with
  | var v => cases ht
  | mu v t => cases ht
  | function ps r =>
    rw [arguments, List.flatMap_append, List.flatMap_singleton, occurrences,
      occurrencesList_eq_flatMap]
  | record is => rw [arguments, occurrences, occurrencesList_eq_flatMap]
  | ref t => exact (List.flatMap_singleton _ _).symm
  | array t => exact (List.flatMap_singleton _ _).symm
  | _ => rfl

theorem isCons_setArguments (t : TipType) (args : List TipType) :
    (t.setArguments args).isCons = t.isCons := by
  cases t <;> rfl

theorem arguments_setArguments {t : TipType} {args : List TipType} (ht : t.isCons = true)
    (h : args.length = t.arguments.length) : (t.setArguments args).arguments = args := by
  cases t with
  | var v => cases ht
  | mu v t => cases ht
  | function ps r =>
    have hne : args ≠ [] := by
      rintro rfl
      simp [arguments] at h
    rw [setArguments, arguments, List.getLastD_eq_getLast?, List.getLast?_eq_getLast_of_ne_nil hne,
      Option.getD_some, List.dropLast_append_getLast]
  | record is => rfl
  | ref t =>
    obtain ⟨a, rfl⟩ := List.length_eq_one_iff.1 h
    rfl
  | array t =>
    obtain ⟨a, rfl⟩ := List.length_eq_one_iff.1 h
    rfl
  | _ =>
    rw [List.length_eq_zero_iff.1 h]
    rfl

/-- A substitution of a variable that does not occur changes nothing. -/
theorem substitute_of_notMem {v : TipVar} {s t : TipType} (ht : t.Contextless)
    (hv : v ∉ t.occurrences) : substitute v s t = some t := by
  have hfree : v ∉ t.freeVars := fun h ↦ hv (t.freeVars_subset_occurrences h)
  have hbinders : v ∉ t.binders := fun h ↦ hv (t.binders_subset_occurrences h)
  rw [substitute_eq_replaceFree ht (fun h ↦ absurd h hfree) fun h ↦ absurd h hbinders,
    replaceFree_of_notMem hfree]

/-! ### All replacements at once -/

/-- An argument of a constructor, with the variables of `done` replaced. -/
def instantiate (f : TipVar → TipType) (done : List TipVar) : TipType → TipType
  | .var v => if v ∈ done then f v else .var v
  | t => t

theorem Leaf.cases {a : TipType} (ha : a.Leaf) :
    (∃ v, a = .var v) ∨ a.occurrences = [] ∧ (∀ f done, instantiate f done a = a) ∧
      ∀ v s, substitute v s a = some a := by
  obtain ⟨hmu, harguments⟩ := ha
  cases a with
  | var v => exact Or.inl ⟨v, rfl⟩
  | mu v t => cases hmu
  | ref t => cases harguments
  | array t => cases harguments
  | function ps r => simp [arguments] at harguments
  | record is =>
    obtain rfl : is = [] := harguments
    exact Or.inr ⟨rfl, fun _ _ ↦ rfl, fun _ _ ↦ rfl⟩
  | _ => exact Or.inr ⟨rfl, fun _ _ ↦ rfl, fun _ _ ↦ rfl⟩

theorem instantiate_congr (f : TipVar → TipType) {done done' : List TipVar}
    (h : ∀ v, v ∈ done ↔ v ∈ done') (a : TipType) : instantiate f done a = instantiate f done' a := by
  cases a with
  | var v => simp only [instantiate, h]
  | _ => rfl

theorem instantiate_nil (f : TipVar → TipType) (a : TipType) : instantiate f [] a = a := by
  cases a with
  | var v => simp only [instantiate, List.not_mem_nil, if_false]
  | _ => rfl

variable {f : TipVar → TipType} {done : List TipVar} {v : TipVar}

/-- One replacement. What is in place already does not hold the variable, unless nothing is. -/
theorem substitute_instantiate (hf : ∀ w ∈ v :: done, (f w).Closed) (hv : v.IsBare → done = [])
    {a : TipType} (ha : a.Leaf) (hcontextless : a.Contextless) :
    substitute v (f v) (instantiate f done a) = some (instantiate f (v :: done) a) := by
  rcases ha.cases with ⟨w, rfl⟩ | ⟨-, hinstantiate, hsubstitute⟩
  · by_cases hw : w ∈ done
    · have hclosed := hf w (List.mem_cons_of_mem _ hw)
      have hnot : v ∉ (f w).occurrences := by
        intro hmem
        rw [hv (hclosed v hmem)] at hw
        cases hw
      simp only [instantiate, hw, List.mem_cons_of_mem, if_true]
      exact substitute_of_notMem hclosed.contextless hnot
    · by_cases hwv : w = v
      · subst hwv
        have hcopy := (copy_eq_self_iff _).2 (hf w List.mem_cons_self).contextless
        simp only [instantiate, hw, if_false, substitute, if_true, List.mem_cons_self, hcopy]
      · have hmem : w ∉ v :: done := fun h ↦ (List.mem_cons.1 h).elim hwv hw
        have hcopy := hcontextless w (List.mem_singleton_self _)
        simp only [instantiate, hw, hmem, if_false, substitute, hwv, hcopy]
  · rw [hinstantiate, hinstantiate, hsubstitute]

theorem substituteList_instantiate (hf : ∀ w ∈ v :: done, (f w).Closed)
    (hv : v.IsBare → done = []) : ∀ {args : List TipType}, (∀ a ∈ args, a.Leaf ∧ a.Contextless) →
      substituteList v (f v) (args.map (instantiate f done)) =
        some (args.map (instantiate f (v :: done)))
  | [], _ => rfl
  | a :: as, h => by
    obtain ⟨ha, has⟩ := List.forall_mem_cons.1 h
    rw [List.map_cons, substituteList, substitute_instantiate hf hv ha.1 ha.2,
      substituteList_instantiate hf hv has]
    rfl

end TipType

/-! ### One result of `close` -/

/-- With any order and with fuel from `n` on, `close` makes `t'` of `t`. -/
def ClosesTo (rep : TipType → TipType) (n : ℕ) (visited : List TipVar) (t t' : TipType) : Prop :=
  ∀ (iter : VarOrder) (fuel : ℕ) (c : Closing), n ≤ fuel → c.unionFind.rep = rep →
    ∃ c', close iter fuel visited t c = some (t', c')

section ClosesTo

variable {rep : TipType → TipType} {n m : ℕ} {visited : List TipVar}

theorem ClosesTo.mono {t t' : TipType} (h : ClosesTo rep n visited t t') (hle : n ≤ m) :
    ClosesTo rep m visited t t' :=
  fun iter fuel c hfuel hrep ↦ h iter fuel c (hle.trans hfuel) hrep

/-- The loop of `close` over the variables replaces all of them. -/
theorem closeArguments_eq {close : TipType → Closing → Option (TipType × Closing)}
    {f : TipVar → TipType} {args : List TipType} (hargs : ∀ a ∈ args, a.Leaf ∧ a.Contextless) :
    ∀ {vs done : List TipVar} {c : Closing},
      (∀ v ∈ vs, ∀ d : Closing, d.unionFind.rep = rep →
        ∃ d', close (.var v) d = some (f v, d') ∧ d'.unionFind.rep = rep) →
      (∀ v ∈ vs ++ done, (f v).Closed) → (∀ v ∈ vs, v.IsBare → vs = [v] ∧ done = []) →
      c.unionFind.rep = rep →
      ∃ c', closeArguments close vs (args.map (instantiate f done)) c =
        some (args.map (instantiate f (vs.reverse ++ done)), c')
  | [], _, c, _, _, _, _ => ⟨c, rfl⟩
  | v :: vs, done, c, hclose, hclosed, hbare, hc => by
    obtain ⟨hclosev, hclosevs⟩ := List.forall_mem_cons.1 hclose
    obtain ⟨c₁, hc₁, hrep⟩ := hclosev c hc
    have hstep := substituteList_instantiate
      (fun w hw ↦ hclosed w (List.cons_subset_cons v (List.subset_append_right _ _) hw))
      (fun h ↦ (hbare v List.mem_cons_self h).2) hargs
    -- an unnamed alpha among the other variables would be the only one
    have hrest : ∀ w ∈ vs, w.IsBare → vs = [w] ∧ v :: done = [] := by
      intro w hw hwbare
      obtain ⟨-, rfl⟩ := List.cons.inj (hbare w (List.mem_cons_of_mem _ hw) hwbare).1
      cases hw
    have hsubset : ∀ w ∈ vs ++ v :: done, (f w).Closed := by
      intro w hw
      refine hclosed w ?_
      simp only [List.mem_append, List.mem_cons] at hw ⊢
      tauto
    obtain ⟨c₂, hc₂⟩ := closeArguments_eq hargs hclosevs hsubset hrest hrep
    refine ⟨c₂, ?_⟩
    rw [closeArguments, hc₁]
    change (TipType.substituteList v (f v) _ >>= _) = _
    rw [hstep, List.reverse_cons, List.append_assoc]
    exact hc₂

/-- What `close` makes of a constructor. -/
theorem close_of_closeArguments (iter : VarOrder) {fuel : ℕ} {t : TipType} {args : List TipType}
    {c d : Closing} (ht : t.isCons = true)
    (h : closeArguments (close iter fuel visited) (iter.order c.sets t.typeVars) t.arguments
      { c with sets := c.sets + 1 } = some (args, d)) :
    close iter (fuel + 1) visited t c = some (t.setArguments args,
      { d with unionFind := d.unionFind.add [t.setArguments args] }) := by
  cases t with
  | var v => cases ht
  | mu v t => cases ht
  | _ => exact Option.bind_eq_some_iff.2 ⟨(args, d), h, rfl⟩

theorem ClosesTo.alpha {v : TipVar} (h : v ∈ visited ∨ rep (.var v) = .var v) :
    ClosesTo rep 1 visited (.var v) (.tipAlpha v.node) := by
  intro iter fuel c hfuel hrep
  obtain ⟨fuel, rfl⟩ := Nat.exists_eq_add_of_le' hfuel
  unfold close
  split_ifs with hvisited
  · exact ⟨_, rfl⟩
  · have hroot : (c.unionFind.find (.var v)).1 = .var v := by
      rw [UnionFind.find_fst, hrep]
      exact h.resolve_left hvisited
    simp only [hroot, if_true]
    exact ⟨_, rfl⟩

/-- A variable that is closed by closing its representative. The variable is bound if it is free
there. -/
theorem ClosesTo.solution {v : TipVar} {closedV : TipType} (hvisited : v ∉ visited)
    (hne : rep (.var v) ≠ .var v) (h : ClosesTo rep n (v :: visited) (rep (.var v)) closedV)
    (hclosed : closedV.Closed) :
    ∃ t', t'.Closed ∧ ClosesTo rep (n + 1) visited (.var v) t' := by
  have hclose : ∀ (iter : VarOrder) (fuel : ℕ) (c : Closing), n ≤ fuel → c.unionFind.rep = rep →
      ∃ c', close iter (fuel + 1) visited (.var v) c =
        if closedV ≠ .var v.closedName ∧ v.closedName ∈ closedV.typeVars then
          (TipType.substitute v (.var v.closedName) closedV).map fun t ↦ (.mu v.closedName t, c')
        else some (closedV, c') := by
    intro iter fuel c hfuel hrep
    obtain ⟨c', hc'⟩ := h iter fuel { c with unionFind := (c.unionFind.find (.var v)).2 } hfuel
      ((UnionFind.rep_find _ _).trans hrep)
    refine ⟨c', ?_⟩
    have hroot : (c.unionFind.find (.var v)).1 = rep (.var v) := by
      rw [UnionFind.find_fst, hrep]
    unfold close
    simp only [hvisited, hroot, hne, if_false, hc', Option.bind_eq_bind, Option.bind_some]
    split_ifs
    · cases TipType.substitute v (.var v.closedName) closedV <;> rfl
    · rfl
  by_cases hcyclic : closedV ≠ .var v.closedName ∧ v.closedName ∈ closedV.typeVars
  · have hbare : v.closedName.IsBare := by
      rw [hclosed.contextless.typeVars] at hcyclic
      exact hclosed _ hcyclic.2
    have hsubstitute : TipType.substitute v (.var v.closedName) closedV = some closedV := by
      cases v with
      | var m =>
        refine TipType.substitute_of_notMem hclosed.contextless fun hmem ↦ ?_
        obtain ⟨_, h⟩ := hclosed _ hmem
        cases h
      | alpha m context name =>
        rw [TipType.substitute_of_copy_eq rfl]
        exact congrArg some ((TipType.copy_eq_self_iff _).2 hclosed.contextless)
    refine ⟨.mu v.closedName closedV, List.forall_mem_cons.2 ⟨hbare, hclosed⟩, ?_⟩
    intro iter fuel c hfuel hrep
    obtain ⟨fuel, rfl⟩ := Nat.exists_eq_add_of_le' ((Nat.le_add_left 1 n).trans hfuel)
    obtain ⟨c', hc'⟩ := hclose iter fuel c (Nat.le_of_succ_le_succ hfuel) hrep
    rw [if_pos hcyclic, hsubstitute] at hc'
    exact ⟨c', hc'⟩
  · refine ⟨closedV, hclosed, fun iter fuel c hfuel hrep ↦ ?_⟩
    obtain ⟨fuel, rfl⟩ := Nat.exists_eq_add_of_le' ((Nat.le_add_left 1 n).trans hfuel)
    obtain ⟨c', hc'⟩ := hclose iter fuel c (Nat.le_of_succ_le_succ hfuel) hrep
    rw [if_neg hcyclic] at hc'
    exact ⟨c', hc'⟩

theorem closable_arguments {t : TipType} (ht : t.Closable) (hcons : t.isCons = true) :
    ∀ a ∈ t.arguments, a.Leaf ∧ a.Contextless := by
  intro a ha
  refine ⟨ht.shallow.2 a ha, fun v hv ↦ ht.contextless v ?_⟩
  rw [occurrences_cons hcons]
  exact List.mem_flatMap.2 ⟨a, ha, hv⟩

/-- A constructor is closed by closing the variables in it. -/
theorem ClosesTo.cons {t : TipType} (ht : t.Closable) (hcons : t.isCons = true)
    {f : TipVar → TipType}
    (hf : ∀ v, (f v).Closed ∧ ClosesTo rep n visited (.var v) (f v)) :
    ∃ t', t'.Closed ∧ ClosesTo rep (n + 1) visited t t' := by
  have hargs := closable_arguments ht hcons
  set args := t.arguments.map (instantiate f t.occurrences) with hdef
  have hlength : args.length = t.arguments.length := List.length_map _
  refine ⟨t.setArguments args, ?_, ?_⟩
  · intro w hw
    rw [occurrences_cons (t.isCons_setArguments args ▸ hcons), arguments_setArguments hcons hlength] at hw
    obtain ⟨a', ha', hw⟩ := List.mem_flatMap.1 hw
    obtain ⟨a, ha, rfl⟩ := List.mem_map.1 ha'
    rcases (hargs a ha).1.cases with ⟨v, rfl⟩ | ⟨hnone, hinstantiate, -⟩
    · have hv : v ∈ t.occurrences := by
        rw [occurrences_cons hcons]
        exact List.mem_flatMap.2 ⟨_, ha, List.mem_singleton_self v⟩
      simp only [instantiate, hv, if_true] at hw
      exact (hf v).1 w hw
    · rw [hinstantiate, hnone] at hw
      cases hw
  · intro iter fuel c hfuel hrep
    obtain ⟨fuel, rfl⟩ := Nat.exists_eq_add_of_le' ((Nat.le_add_left 1 n).trans hfuel)
    set vs := iter.order c.sets t.occurrences with hvs
    have hperm : vs.Perm t.occurrences := iter.perm _ _
    have hbare : ∀ v ∈ vs, v.IsBare → vs = [v] ∧ ([] : List TipVar) = [] := by
      intro v hv h
      rw [ht.alone v (hperm.mem_iff.1 hv) h] at hperm
      exact ⟨List.perm_singleton.1 hperm, rfl⟩
    obtain ⟨c', hc'⟩ := closeArguments_eq hargs
      (fun v _ d hd ↦ by
        obtain ⟨d', hd'⟩ := (hf v).2 iter fuel d (Nat.le_of_succ_le_succ hfuel) hd
        exact ⟨d', hd', (close_rep_eq iter hd').trans hd⟩)
      (fun v _ ↦ (hf v).1) hbare (c := { c with sets := c.sets + 1 }) hrep
    have hall : t.arguments.map (instantiate f (vs.reverse ++ [])) = args := by
      refine List.map_congr_left fun a _ ↦ instantiate_congr f (fun v ↦ ?_) a
      rw [List.append_nil, List.mem_reverse, hperm.mem_iff]
    have hnil : t.arguments.map (instantiate f []) = t.arguments :=
      (List.map_congr_left fun a _ ↦ instantiate_nil f a).trans (List.map_id _)
    rw [hall, hnil] at hc'
    refine ⟨_, close_of_closeArguments iter hcons (d := c') ?_⟩
    rw [ht.contextless.typeVars]
    exact hc'

/-- Every variable is closed to one type. The induction is on the number of variables that are bound
to another term and not being closed. -/
theorem exists_closesTo {V : Finset TipVar} (hV : ∀ v, rep (.var v) ≠ .var v → v ∈ V)
    (hrep : ∀ v, rep (.var v) = .var v ∨ (rep (.var v)).Closable) :
    ∀ (n : ℕ) (visited : List TipVar), (V \ visited.toFinset).card ≤ n →
      ∀ v, ∃ t', t'.Closed ∧ ClosesTo rep (2 * n + 1) visited (.var v) t' := by
  intro n
  induction n with
  | zero =>
    intro visited hn v
    refine ⟨.tipAlpha v.node, closed_tipAlpha _, ClosesTo.alpha ?_⟩
    by_contra hor
    obtain ⟨hvisited, hne⟩ := not_or.1 hor
    have hmem : v ∈ V \ visited.toFinset :=
      Finset.mem_sdiff.2 ⟨hV v hne, fun h ↦ hvisited (List.mem_toFinset.1 h)⟩
    rw [Finset.card_eq_zero.1 (Nat.le_zero.1 hn)] at hmem
    exact Finset.notMem_empty v hmem
  | succ n ih =>
    intro visited hn v
    by_cases halpha : v ∈ visited ∨ rep (.var v) = .var v
    · exact ⟨.tipAlpha v.node, closed_tipAlpha _, (ClosesTo.alpha halpha).mono (Nat.le_add_left 1 _)⟩
    · obtain ⟨hvisited, hne⟩ := not_or.1 halpha
      have hmem : v ∈ V \ visited.toFinset :=
        Finset.mem_sdiff.2 ⟨hV v hne, fun h ↦ hvisited (List.mem_toFinset.1 h)⟩
      have hcard : (V \ (v :: visited).toFinset).card ≤ n := by
        rw [List.toFinset_cons, Finset.sdiff_insert, Finset.card_erase_of_mem hmem]
        omega
      choose f hf using ih (v :: visited) hcard
      obtain ⟨closedV, hclosed, hcloses⟩ : ∃ closedV, closedV.Closed ∧
          ClosesTo rep (2 * n + 2) (v :: visited) (rep (.var v)) closedV := by
        have hclosable := (hrep v).resolve_left hne
        generalize rep (.var v) = r at hclosable
        cases hcons : r.isCons with
        | true => exact ClosesTo.cons hclosable hcons hf
        | false =>
          cases r with
          | var w => exact ⟨f w, (hf w).1, (hf w).2.mono (Nat.le_succ _)⟩
          | mu w t => exact nomatch hclosable.shallow.1
          | _ => cases hcons
      exact ClosesTo.solution hvisited hne hcloses hclosed

end ClosesTo

/-! ### The terms of a program -/

namespace TipType

theorem closable_of_leaf {t : TipType} (ht : t.Leaf) (h : t.Contextless) : t.Closable := by
  refine ⟨ht.shallow, h, fun v hv _ ↦ ?_⟩
  rcases ht.cases with ⟨w, rfl⟩ | ⟨hnone, -⟩
  · rw [List.mem_singleton.1 hv]
    rfl
  · rw [hnone] at hv
    cases hv

theorem Closable.of_mem_arguments {t : TipType} (ht : t.Closable) {a : TipType}
    (ha : a ∈ t.arguments) : a.Closable := by
  cases hcons : t.isCons with
  | true =>
    obtain ⟨hleaf, hcontextless⟩ := closable_arguments ht hcons a ha
    exact closable_of_leaf hleaf hcontextless
  | false =>
    cases t with
    | var v => exact absurd ha List.not_mem_nil
    | mu v t => exact absurd ha List.not_mem_nil
    | _ => cases hcons

end TipType

namespace TypeConstraintVisitor

variable {st : SymbolTable} (scope : NodeId)

theorem closable_tipVar (n : NodeId) : (TipType.tipVar n).Closable := by
  refine closable_of_leaf ⟨rfl, rfl⟩ fun v hv ↦ ?_
  rw [List.mem_singleton.1 hv]
  rfl

/-- A constructor without an unnamed alpha. -/
theorem closable_of_arguments {t : TipType} (ht : t.isCons = true)
    (h : ∀ a ∈ t.arguments, a.Leaf ∧ ∀ v ∈ a.occurrences, v.copy = v ∧ ¬ v.IsBare) :
    t.Closable := by
  have hoccurrences : ∀ v ∈ t.occurrences, v.copy = v ∧ ¬ v.IsBare := by
    intro v hv
    rw [occurrences_cons ht] at hv
    obtain ⟨a, ha, hv⟩ := List.mem_flatMap.1 hv
    exact (h a ha).2 v hv
  refine ⟨⟨?_, fun a ha ↦ (h a ha).1⟩, fun v hv ↦ (hoccurrences v hv).1,
    fun v hv hbare ↦ absurd hbare (hoccurrences v hv).2⟩
  cases t <;> first | rfl | cases ht

/-- A reference or an array type of a variable. -/
theorem closable_unary {t : TipType} {v : TipVar} (ht : t.isCons = true)
    (h : t.arguments = [.var v]) (hv : v.copy = v) : t.Closable := by
  have hoccurrences : t.occurrences = [v] := by
    rw [occurrences_cons ht, h]
    rfl
  refine ⟨⟨?_, fun a ha ↦ ?_⟩, fun w hw ↦ ?_, fun w hw _ ↦ ?_⟩
  · cases t <;> first | rfl | cases ht
  · rw [h] at ha
    rw [List.mem_singleton.1 ha]
    exact ⟨rfl, rfl⟩
  · rw [hoccurrences] at hw
    rw [List.mem_singleton.1 hw, hv]
  · rw [hoccurrences] at hw ⊢
    rw [List.mem_singleton.1 hw]

theorem closable_function {n : NodeId} (ps : List TipType) (h : ∀ t ∈ ps, ∃ m, t = .tipVar m) :
    (TipType.function ps (.tipVar n)).Closable := by
  refine closable_of_arguments rfl fun a ha ↦ ?_
  obtain ⟨m, rfl⟩ : ∃ m, a = .tipVar m := by
    rcases List.mem_append.1 ha with ha | ha
    · exact h a ha
    · exact ⟨n, List.mem_singleton.1 ha⟩
  refine ⟨⟨rfl, rfl⟩, fun v hv ↦ ?_⟩
  rw [List.mem_singleton.1 hv]
  exact ⟨rfl, fun ⟨_, h⟩ ↦ nomatch h⟩

theorem closable_recordExpr (fields : List ASTFieldExpr) :
    (TipType.record (st.getFields.map (fieldType st scope fields))).Closable := by
  refine closable_of_arguments rfl fun a ha ↦ ?_
  obtain ⟨f, -, rfl⟩ := List.mem_map.1 ha
  refine ⟨leaf_fieldType st scope fields f, fun v hv ↦ ?_⟩
  unfold fieldType at hv
  split at hv
  · rw [List.mem_singleton.1 hv]
    exact ⟨rfl, fun ⟨_, h⟩ ↦ nomatch h⟩
  · cases hv

/-- The alphas of a field access carry the names of the other fields. -/
theorem closable_accessExpr (hfields : ∀ f ∈ st.getFields, IsIdentifier f) (node : ASTExpr)
    (field : String) :
    (TipType.record (st.getFields.map (accessType st scope node field))).Closable := by
  refine closable_of_arguments rfl fun a ha ↦ ?_
  obtain ⟨f, hf, rfl⟩ := List.mem_map.1 ha
  refine ⟨leaf_accessType st scope node field f, fun v hv ↦ ?_⟩
  unfold accessType at hv
  split_ifs at hv
  · rw [List.mem_singleton.1 hv]
    exact ⟨rfl, fun ⟨_, h⟩ ↦ nomatch h⟩
  · rw [List.mem_singleton.1 hv]
    refine ⟨rfl, fun ⟨_, h⟩ ↦ ?_⟩
    obtain rfl : f = "" := (TipVar.alpha.inj h).2.2
    exact absurd (hfields _ hf).1 (by decide)

/-- What the visitor makes can be closed in any order. -/
theorem closable_endVisit (hfields : ∀ f ∈ st.getFields, IsIdentifier f) (n : ASTNode) :
    ∀ c ∈ endVisit st scope n, c.lhs.Closable ∧ c.rhs.Closable := by
  have hint : TipType.int.Closable := closable_of_leaf ⟨rfl, rfl⟩ fun _ hv ↦ nomatch hv
  have hbool : TipType.bool.Closable := closable_of_leaf ⟨rfl, rfl⟩ fun _ hv ↦ nomatch hv
  have hunary : ∀ v : TipVar, v.copy = v →
      (TipType.ref (.var v)).Closable ∧ (TipType.array (.var v)).Closable :=
    fun v hv ↦ ⟨closable_unary rfl rfl hv, closable_unary rfl rfl hv⟩
  have hcopy : ∀ m, (TipVar.var m).copy = .var m ∧
      (TipVar.alpha m none "").copy = .alpha m none "" := fun _ ↦ ⟨rfl, rfl⟩
  cases n with
  | function f =>
    have hfunction : (TipType.function (f.formals.map declToVar)
        (astToVar st scope f.ret.arg)).Closable := closable_function _ (by simp [declToVar])
    unfold endVisit endVisitFunction
    dsimp only
    split_ifs
    · intro c hc
      rcases List.mem_append.1 hc with hc | hc
      · obtain ⟨d, -, rfl⟩ := List.mem_map.1 hc
        exact ⟨closable_tipVar _, hint⟩
      · rcases List.mem_pair.1 hc with rfl | rfl
        · exact ⟨closable_tipVar _, hint⟩
        · exact ⟨closable_tipVar _, hfunction⟩
    · intro c hc
      rw [List.mem_singleton.1 hc]
      exact ⟨closable_tipVar _, hfunction⟩
  | expr e =>
    cases e with
    | binaryExpr n op l r =>
      cases op <;> simp [endVisit, endVisitExpr, endVisitBinary, astToVar, closable_tipVar, hint, hbool]
    | funAppExpr n f as =>
      have := closable_function (as.map (astToVar st scope))
        (n := st.canonical scope (.funAppExpr n f as)) (by simp [astToVar])
      simpa [endVisit, endVisitExpr, astToVar, closable_tipVar]
    | recordExpr n fs =>
      simpa [endVisit, endVisitExpr, astToVar, closable_tipVar] using closable_recordExpr scope fs
    | accessExpr n r f =>
      simpa [endVisit, endVisitExpr, astToVar, closable_tipVar] using
        closable_accessExpr scope hfields (.accessExpr n r f) f
    | arrayExpr n es =>
      intro c hc
      rcases List.mem_append.1 hc with hc | hc
      · obtain ⟨q, -, rfl⟩ := List.mem_map.1 hc
        exact ⟨closable_tipVar _, closable_tipVar _⟩
      · cases es with
        | nil => cases hc
        | cons a as =>
          rw [List.mem_singleton.1 hc]
          exact ⟨closable_tipVar _, (hunary _ rfl).2⟩
    | _ => simp [endVisit, endVisitExpr, astToVar, closable_tipVar, hint, hbool, hunary, hcopy]
  | stmt s =>
    cases s with
    | assignStmt n l r =>
      cases l <;> simp [endVisit, endVisitStmt, astToVar, closable_tipVar, hunary, hcopy]
    | forStmt n i d b =>
      rcases d with _ | ⟨_, _, _ | _⟩ <;>
        simp [endVisit, endVisitStmt, astToVar, closable_tipVar, hunary, hcopy, hint]
    | _ => simp [endVisit, endVisitStmt, astToVar, closable_tipVar, hint, hbool]
  | _ =>
    intro c hc
    cases hc

end TypeConstraintVisitor

/-- A term that does not represent itself comes from the constraints, and so does its
representative. -/
theorem Unifier.Sound.rep_eq_or_mem {u : Unifier} (h : u.Sound) {W : TipType → Prop}
    (hargs : ∀ t, W t → ∀ a ∈ t.arguments, W a)
    (hsides : ∀ c ∈ u.constraints, W c.lhs ∧ W c.rhs) (t : TipType) :
    u.unionFind.rep t = t ∨ W (u.unionFind.rep t) ∧ W t := by
  have hentails := h.entailed _ _ (u.unionFind.rep_rep t)
  refine Library.TermView.LeastDecomposing.eq_or_mem ?_ hargs hentails
  rintro _ _ ⟨c, hc, rfl, rfl⟩
  exact hsides c hc

/-- With a solved constraint system, the inferred type of a variable is there and does not depend on the
orders in which the variables are gone through, whatever was looked up before. The names of the fields
are identifiers, as the parser reads them. -/
theorem Unifier.inferred_order {p : ASTProgram} {st : SymbolTable} {u : Unifier}
    (hfields : ∀ f ∈ st.getFields, IsIdentifier f) (h : collectAndSolve st p = .ok u) (v : TipVar) :
    ∃ t bound, ∀ (iter : VarOrder) (fuel : ℕ) (c : Closing), bound ≤ fuel →
      c.unionFind.rep = u.unionFind.rep → ∃ c', inferred iter fuel (.var v) c = some (t, c') := by
  obtain ⟨hconstraints, hsolved⟩ : u.constraints = p.typeConstraints st ∧ u.Solved := by
    rcases (Unifier.sound_empty.add (p.typeConstraints st)).solve with
      ⟨u', hu', hconstraints, hsolved⟩ | ⟨⟨e, he⟩, -⟩
    · obtain rfl := Except.ok.inj (hu'.symm.trans h)
      exact ⟨hconstraints, hsolved⟩
    · exact nomatch he.symm.trans h
  have hclosable : ∀ c ∈ u.constraints, c.lhs.Closable ∧ c.rhs.Closable := by
    rw [hconstraints]
    intro c hc
    obtain ⟨f, -, hc⟩ := List.mem_flatMap.1 hc
    obtain ⟨ev, -, hc⟩ := List.mem_flatMap.1 hc
    cases ev with
    | visit n => cases hc
    | endVisit n => exact TypeConstraintVisitor.closable_endVisit f.decl.node hfields n c hc
  have hrep := hsolved.toSound.rep_eq_or_mem (fun t ht a ↦ ht.of_mem_arguments) hclosable
  have hterms := hsolved.toSound.rep_eq_or_mem (W := (· ∈ u.terms)) (fun t ht a ↦ u.terms_arguments ht)
    fun c hc ↦ (u.sides_mem hc).imp List.mem_toFinset.1 List.mem_toFinset.1
  let V : Finset TipVar := (u.terms.flatMap occurrences).toFinset
  have hV : ∀ w, u.unionFind.rep (.var w) ≠ .var w → w ∈ V := fun w hw ↦
    List.mem_toFinset.2 (List.mem_flatMap.2
      ⟨_, ((hterms (.var w)).resolve_left hw).2, List.mem_singleton_self w⟩)
  obtain ⟨t, -, ht⟩ := exists_closesTo hV (fun w ↦ (hrep (.var w)).imp_right And.left)
    (V \ ([] : List TipVar).toFinset).card [] le_rfl v
  exact ⟨t, _, fun iter fuel c hfuel hc ↦ ht iter fuel c hfuel hc⟩

/-- `first(r, x) { return r.f; }`. -/
def accessProgram : ASTProgram where
  functions := [⟨0, ⟨1, "first"⟩, [⟨2, "r"⟩, ⟨3, "x"⟩], [], [],
    ⟨4, .accessExpr 5 (.variableExpr 6 "r") "f"⟩, false⟩]
  distinct := by decide +kernel

/-- The symbol table of `accessProgram`. -/
def accessTable : SymbolTable where
  functionNames := [("first", 1, false)]
  localNames := [(1, [("r", 2), ("x", 3)])]
  fieldNames := ["f"]

theorem Unifier.inferred_order_access :
    SymbolTable.build accessProgram = .ok accessTable ∧
      ∃ u, collectAndSolve accessTable accessProgram = .ok u ∧
        ∃ t bound, ∀ (iter : VarOrder) (fuel : ℕ) (c : Closing), bound ≤ fuel →
          c.unionFind.rep = u.unionFind.rep →
            ∃ c', inferred iter fuel (.tipVar 1) c = some (t, c') := by
  refine ⟨rfl, ?_⟩
  have hsolves : (collectAndSolve accessTable accessProgram).toOption.isSome = true := by
    decide +kernel
  cases h : collectAndSolve accessTable accessProgram with
  | error e =>
    rw [h] at hsolves
    cases hsolves
  | ok u =>
    have hfields : ∀ f ∈ accessTable.getFields, IsIdentifier f := by decide
    exact ⟨u, rfl, Unifier.inferred_order hfields h (.var 1)⟩

end Sipc
