import Sipc.Semantic.Cfa.CubicSolverCalls
import Sipc.Semantic.Cfa.CubicSolverCorrectness

/-!
# The functions a solver is built with

A loop over the functions sees those of `indices` only. Reading a solver at some of its functions
(`restrict`) commutes with every call, so the solver of a list of functions does what the solver on
the type of its members does, and between calls its sets solve the constraints
(`isSolution_getPossibleFunctionsForExpr`).
-/

set_option autoImplicit false
set_option relaxedAutoImplicit false

namespace Sipc

open Library

variable {N I J : Type}

/-- A node, read at the functions of `I`. -/
def CubicSolverNode.restrict (φ : I → J) (x : CubicSolverNode N J) : CubicSolverNode N I where
  supsets := x.supsets
  subsets := x.subsets
  bitvector := x.bitvector ∘ φ
  conditionalConstraints := x.conditionalConstraints ∘ φ

namespace CubicSolver

/-- A solver, read at the functions of `I`. -/
def restrict (φ : I → J) (s : CubicSolver N J) : CubicSolver N I where
  nodes := fun x ↦ (s.nodes x).restrict φ
  created := s.created
  dagmapping := s.dagmapping

variable {φ : I → J} {iter : IterationOrder}

theorem restrict_modify {s : CubicSolver N J} {t : CubicSolver N I} (hs : s.restrict φ = t)
    {x : CubicId} {change : CubicSolverNode N J → CubicSolverNode N J}
    {change' : CubicSolverNode N I → CubicSolverNode N I}
    (h : (change (s.nodes x)).restrict φ = change' ((s.nodes x).restrict φ)) :
    (s.modify x change).restrict φ = t.modify x change' := by
  subst hs
  unfold modify restrict
  dsimp only
  congr 1
  funext y
  by_cases hy : y = x
  · subst hy
    rw [Function.update_self, Function.update_self, h]
  · rw [Function.update_of_ne hy, Function.update_of_ne hy]

theorem restrict_foldl {α : Type} {f : CubicSolver N J → α → CubicSolver N J}
    {g : CubicSolver N I → α → CubicSolver N I}
    (h : ∀ s a, (f s a).restrict φ = g (s.restrict φ) a) : ∀ (as : List α) {s : CubicSolver N J}
    {t : CubicSolver N I}, s.restrict φ = t → (as.foldl f s).restrict φ = as.foldl g t
  | [], _, _, hs => hs
  | a :: as, s, t, hs => by
    subst hs
    exact restrict_foldl h as (h s a)

/-- A loop over a list that is read off a node. -/
theorem restrict_foldl_nodes {α : Type} {f : CubicSolver N J → α → CubicSolver N J}
    {g : CubicSolver N I → α → CubicSolver N I} (list : CubicSolverNode N J → List α)
    (list' : CubicSolverNode N I → List α) (hlist : ∀ x, list x = list' (x.restrict φ))
    (h : ∀ s a, (f s a).restrict φ = g (s.restrict φ) a) (x : CubicId) {s : CubicSolver N J}
    {t : CubicSolver N I} (hs : s.restrict φ = t) :
    ((list (s.nodes x)).foldl f s).restrict φ = (list' (t.nodes x)).foldl g t := by
  have hx : list (s.nodes x) = list' (t.nodes x) := by
    rw [hlist, ← hs]
    rfl
  rw [hx]
  exact restrict_foldl h _ hs

theorem restrict_addEmptyVariableIfNecessary [DecidableEq N] (node : N) (s : CubicSolver N J) :
    (s.addEmptyVariableIfNecessary node).restrict φ =
      (s.restrict φ).addEmptyVariableIfNecessary node := by
  unfold addEmptyVariableIfNecessary
  cases hs : s.dagmapping node with
  | some x =>
    rw [show (s.restrict φ).dagmapping node = some x from hs]
  | none =>
    rw [show (s.restrict φ).dagmapping node = none from hs]
    unfold restrict
    dsimp only
    congr 1
    funext y
    by_cases hy : y = s.created
    · subst hy
      rw [Function.update_self, Function.update_self]
      rfl
    · rw [Function.update_of_ne hy, Function.update_of_ne hy]

/-! ### Cycles -/

theorem restrict_relinkSupset (n1 n2 : CubicId) (s : CubicSolver N J) (a : CubicId) :
    (relinkSupset n1 n2 s a).restrict φ = relinkSupset n1 n2 (s.restrict φ) a := by
  unfold relinkSupset
  split_ifs
  · rfl
  · refine restrict_modify ?_ rfl
    exact restrict_modify rfl rfl

theorem restrict_relinkSubset (n1 n2 : CubicId) (s : CubicSolver N J) (a : CubicId) :
    (relinkSubset n1 n2 s a).restrict φ = relinkSubset n1 n2 (s.restrict φ) a := by
  unfold relinkSubset
  split_ifs
  · rfl
  · refine restrict_modify ?_ rfl
    exact restrict_modify rfl rfl

theorem restrict_mergeNodes (n1 n2 : CubicId) (s : CubicSolver N J) :
    (mergeNodes iter n1 n2 s).restrict φ = mergeNodes iter n1 n2 (s.restrict φ) := by
  have hmap : CubicSolver.restrict φ { s with
      dagmapping := fun m ↦ if s.dagmapping m = some n2 then some n1 else s.dagmapping m } =
      { s.restrict φ with
        dagmapping := fun m ↦ if s.dagmapping m = some n2 then some n1 else s.dagmapping m } := rfl
  unfold mergeNodes
  refine restrict_modify ?_ rfl
  refine restrict_foldl_nodes (fun x ↦ iter.list x.subsets) (fun x ↦ iter.list x.subsets)
    (fun x ↦ show _ = iter.list (x.restrict φ).subsets from rfl) (restrict_relinkSubset n1 n2) n2 ?_
  refine restrict_foldl_nodes (fun x ↦ iter.list x.supsets) (fun x ↦ iter.list x.supsets)
    (fun x ↦ show _ = iter.list (x.restrict φ).supsets from rfl) (restrict_relinkSupset n1 n2) n2 ?_
  exact restrict_modify hmap rfl

theorem restrict_mergePath (path : List CubicId) (s : CubicSolver N J) :
    (mergePath iter path s).map (Prod.map id (restrict φ)) = mergePath iter path (s.restrict φ) := by
  cases path with
  | nil => rfl
  | cons a path =>
    exact congrArg (fun s ↦ some (a, s)) (restrict_foldl (fun s b ↦ restrict_mergeNodes a b s) path rfl)

theorem findDistances_restrict (s : CubicSolver N J) (target : CubicId) :
    ∀ (fuel : ℕ) (search : Search), findDistances iter (s.restrict φ) target fuel search =
      findDistances iter s target fuel search
  | 0, _ => rfl
  | fuel + 1, search => by
    unfold findDistances
    cases search.2 with
    | nil => rfl
    | cons curr rest =>
      dsimp only
      rw [findDistances_restrict s target fuel]
      rfl

theorem backtrack_restrict (s : CubicSolver N J) (distances : CubicId → Option ℕ) (source : CubicId) :
    ∀ (fuel : ℕ) (curr : CubicId) (out : List CubicId),
      backtrack iter (s.restrict φ) distances source fuel curr out =
        backtrack iter s distances source fuel curr out
  | 0, _, _ => rfl
  | fuel + 1, curr, out => by
    unfold backtrack
    dsimp only
    rw [backtrack_restrict s distances source fuel]
    rfl

theorem findPath_restrict (fuel : ℕ) (source target : CubicId) (s : CubicSolver N J) :
    findPath iter fuel source target (s.restrict φ) = findPath iter fuel source target s := by
  unfold findPath
  dsimp only
  rw [findDistances_restrict]
  simp only [backtrack_restrict]
  rfl

theorem firstPath_restrict (fuel : ℕ) (n : CubicId) (s : CubicSolver N J) : ∀ ts : List CubicId,
    firstPath iter fuel n (s.restrict φ) ts = firstPath iter fuel n s ts
  | [] => rfl
  | t :: ts => by
    unfold firstPath
    rw [findPath_restrict, firstPath_restrict fuel n s ts]

theorem restrict_killCyclesAt : ∀ (fuel : ℕ) (n : CubicId) (s : CubicSolver N J),
    (killCyclesAt iter fuel n s).map (Prod.map id (restrict φ)) =
      killCyclesAt iter fuel n (s.restrict φ)
  | 0, _, _ => rfl
  | fuel + 1, n, s => by
    unfold killCyclesAt
    rw [firstPath_restrict]
    rw [show ((s.restrict φ).nodes n).supsets = (s.nodes n).supsets from rfl]
    cases firstPath iter fuel n s (iter.list (s.nodes n).supsets) with
    | none => rfl
    | some path =>
      cases path with
      | nil => rfl
      | cons a path =>
        dsimp only
        rw [← restrict_mergePath]
        cases mergePath iter (a :: path) s with
        | none => rfl
        | some r => exact restrict_killCyclesAt fuel r.1 r.2

/-! ### Propagation -/

theorem restrict_foldlM {α β : Type} (k : α → β) {f : CubicSolver N J → β → Option (CubicSolver N J)}
    {g : CubicSolver N I → α → Option (CubicSolver N I)}
    (h : ∀ s a, (f s (k a)).map (restrict φ) = g (s.restrict φ) a) :
    ∀ (as : List α) (s : CubicSolver N J),
      ((as.map k).foldlM f s).map (restrict φ) = as.foldlM g (s.restrict φ)
  | [], _ => rfl
  | a :: as, s => by
    rw [List.map_cons, List.foldlM_cons, List.foldlM_cons, ← h]
    cases f s (k a) with
    | none => rfl
    | some s' => exact restrict_foldlM k h as s'

theorem restrict_foldlM_self {α : Type} {f : CubicSolver N J → α → Option (CubicSolver N J)}
    {g : CubicSolver N I → α → Option (CubicSolver N I)}
    (h : ∀ s a, (f s a).map (restrict φ) = g (s.restrict φ) a) (as : List α) (s : CubicSolver N J) :
    (as.foldlM f s).map (restrict φ) = as.foldlM g (s.restrict φ) := by
  have hmap := restrict_foldlM id h as s
  rwa [List.map_id] at hmap

theorem restrict_link (a b : CubicId) (s : CubicSolver N J) :
    (link a b s).restrict φ = link a b (s.restrict φ) := by
  refine restrict_modify ?_ rfl
  exact restrict_modify rfl rfl

theorem restrict_addBits (node sups : CubicId) (s : CubicSolver N J) :
    (addBits node sups s).restrict φ = addBits node sups (s.restrict φ) :=
  restrict_modify rfl rfl

theorem restrict_clear [DecidableEq I] [DecidableEq J] (hφ : Function.Injective φ) (node : CubicId)
    (i : I) (s : CubicSolver N J) :
    (clear node (φ i) s).restrict φ = clear node i (s.restrict φ) := by
  refine restrict_modify rfl ?_
  unfold CubicSolverNode.restrict
  dsimp only
  rw [Function.update_comp_eq_of_injective _ hφ]

/-- A function of the whole solver does on what is read what the other one does. -/
def Commutes (φ : I → J) (f : CubicSolver N J → Option (CubicSolver N J))
    (g : CubicSolver N I → Option (CubicSolver N I)) : Prop :=
  ∀ s, (f s).map (restrict φ) = g (s.restrict φ)

section Propagate

variable {propagate : CubicId → CubicSolver N J → Option (CubicSolver N J)}
  {propagate' : CubicId → CubicSolver N I → Option (CubicSolver N I)}

variable (iter) in
theorem commutes_activateWith (h : ∀ x, Commutes φ (propagate x) (propagate' x)) (fuel : ℕ)
    (source target : N) : Commutes φ (activateWith iter fuel propagate source target)
      (activateWith iter fuel propagate' source target) := by
  intro s
  unfold activateWith
  rw [show (s.restrict φ).dagmapping = s.dagmapping from rfl]
  cases s.dagmapping source with
  | none => rfl
  | some a =>
    cases s.dagmapping target with
    | none => rfl
    | some b =>
      dsimp only
      split_ifs
      · rfl
      · have hkill : _ = killCyclesAt iter fuel a ((link a b s).restrict φ) :=
          restrict_killCyclesAt fuel a (link a b s)
        rw [restrict_link] at hkill
        unfold link at hkill
        rw [← hkill]
        cases hs' : killCyclesAt iter fuel a _ with
        | none => rfl
        | some r =>
          obtain ⟨n, s'⟩ := r
          dsimp only [Option.map_some, Prod.map]
          rw [show (s'.restrict φ).dagmapping = s'.dagmapping from rfl]
          cases s'.dagmapping source with
          | none => rfl
          | some a' => exact h a' s'

theorem restrict_activateIndex [DecidableEq I] [DecidableEq J] (hφ : Function.Injective φ)
    {activate : N → N → CubicSolver N J → Option (CubicSolver N J)}
    {activate' : N → N → CubicSolver N I → Option (CubicSolver N I)}
    (h : ∀ a b, Commutes φ (activate a b) (activate' a b)) (node : CubicId) (s : CubicSolver N J)
    (i : I) : (activateIndex activate node s (φ i)).map (restrict φ) =
      activateIndex activate' node (s.restrict φ) i := by
  unfold activateIndex
  rw [show ((s.restrict φ).nodes node).bitvector i = (s.nodes node).bitvector (φ i) from rfl]
  split_ifs
  · have hclear := restrict_clear hφ node i s
    unfold clear at hclear
    dsimp only
    rw [← hclear]
    exact restrict_foldlM_self (fun s pair ↦ h pair.1 pair.2 s) _ _
  · rfl

theorem restrict_propagateTo (h : ∀ x, Commutes φ (propagate x) (propagate' x)) (node : CubicId)
    (s : CubicSolver N J) (sups : CubicId) :
    (propagateTo propagate node s sups).map (restrict φ) =
      propagateTo propagate' node (s.restrict φ) sups := by
  unfold propagateTo
  have hadd : (addBits node sups s).restrict φ = _ := restrict_addBits node sups s
  unfold addBits at hadd
  dsimp only
  rw [← hadd]
  split_ifs
  · rfl
  · exact h sups _

end Propagate

variable [DecidableEq I] [DecidableEq J] (hφ : Function.Injective φ) (indices : List I)

include hφ

variable (iter) in
theorem commutes_propagateNodeChanges : ∀ (fuel : ℕ) (x : CubicId),
    Commutes φ (propagateNodeChanges (N := N) (indices.map φ) iter fuel x)
      (propagateNodeChanges indices iter fuel x)
  | 0, _ => fun _ ↦ rfl
  | fuel + 1, x => by
    have ih := commutes_propagateNodeChanges fuel
    intro s
    unfold propagateNodeChanges
    have hfirst := restrict_foldlM φ (restrict_activateIndex hφ
      (commutes_activateWith iter ih fuel) x) indices s
    dsimp only [bind]
    rw [← hfirst]
    cases (indices.map φ).foldlM (activateIndex (activateWith iter fuel
      (propagateNodeChanges (indices.map φ) iter fuel)) x) s with
    | none => rfl
    | some s₁ => exact restrict_foldlM_self (restrict_propagateTo ih x) _ s₁

/-! ### Adding constraints -/

variable [DecidableEq N]

theorem restrict_addConstraint (fuel : ℕ) (s : CubicSolver N J) (c : SetConstraint N I) :
    (addConstraint (indices.map φ) iter fuel s (c.mapElements φ)).map (restrict φ) =
      addConstraint indices iter fuel (s.restrict φ) c := by
  have hprop := commutes_propagateNodeChanges (N := N) iter hφ indices fuel
  cases c with
  | elementof f n =>
    unfold addConstraint SetConstraint.mapElements addElementofConstraint
    dsimp only
    rw [← restrict_addEmptyVariableIfNecessary]
    generalize s.addEmptyVariableIfNecessary n = s₁
    rw [show (s₁.restrict φ).dagmapping = s₁.dagmapping from rfl]
    cases s₁.dagmapping n with
    | none => rfl
    | some x =>
      refine (hprop x _).trans (congrArg _ (restrict_modify rfl ?_))
      unfold CubicSolverNode.restrict
      dsimp only
      rw [Function.update_comp_eq_of_injective _ hφ]
  | subseteq a b =>
    unfold addConstraint SetConstraint.mapElements addSubseteqConstraint
    dsimp only
    rw [← restrict_addEmptyVariableIfNecessary, ← restrict_addEmptyVariableIfNecessary]
    exact commutes_activateWith iter hprop fuel a b _
  | conditional f n a b =>
    unfold addConstraint SetConstraint.mapElements addConditionalConstraint
    dsimp only
    rw [← restrict_addEmptyVariableIfNecessary, ← restrict_addEmptyVariableIfNecessary,
      ← restrict_addEmptyVariableIfNecessary]
    generalize ((s.addEmptyVariableIfNecessary n).addEmptyVariableIfNecessary
      a).addEmptyVariableIfNecessary b = s₁
    rw [show (s₁.restrict φ).dagmapping = s₁.dagmapping from rfl]
    cases s₁.dagmapping n with
    | none => rfl
    | some x =>
      refine (hprop x _).trans (congrArg _ (restrict_modify rfl ?_))
      unfold CubicSolverNode.restrict
      dsimp only
      rw [Function.update_comp_eq_of_injective _ hφ]
      rfl

variable (iter) in
theorem restrict_solveConstraints (fuel : ℕ) (cs : List (SetConstraint N I)) :
    (solveConstraints (indices.map φ) iter fuel (cs.map (SetConstraint.mapElements φ))).map
      (restrict φ) = solveConstraints indices iter fuel cs :=
  restrict_foldlM (SetConstraint.mapElements φ) (restrict_addConstraint hφ indices fuel) cs _

omit [DecidableEq N] [DecidableEq I] [DecidableEq J] in
theorem mem_getPossibleFunctionsForExpr_restrict (s : CubicSolver N J)
    (n : N) (i : I) : i ∈ getPossibleFunctionsForExpr indices (s.restrict φ) n ↔
      φ i ∈ getPossibleFunctionsForExpr (indices.map φ) s n := by
  unfold getPossibleFunctionsForExpr
  rw [show (s.restrict φ).dagmapping = s.dagmapping from rfl]
  cases s.dagmapping n with
  | none => exact iff_of_false List.not_mem_nil List.not_mem_nil
  | some x =>
    dsimp only
    rw [List.mem_filter, List.mem_filter, List.mem_map_of_injective hφ]
    rfl

omit hφ [DecidableEq J] in
/-- Constraints on the functions of the solver only are solved by its sets. -/
theorem isSolution_getPossibleFunctionsForExpr {functions : List I} {fuel : ℕ}
    {cs : List (SetConstraint N I)} {s : CubicSolver N I}
    (hcs : ∀ c ∈ cs, ∀ f ∈ c.elements, f ∈ functions)
    (h : solveConstraints functions iter fuel cs = some s) :
    SetConstraint.IsSolution cs fun n f ↦ f ∈ getPossibleFunctionsForExpr functions s n := by
  have hval : Function.Injective (Subtype.val : {f // f ∈ functions} → I) := Subtype.val_injective
  obtain ⟨cs', rfl⟩ : ∃ cs' : List (SetConstraint N {f // f ∈ functions}),
      cs'.map (SetConstraint.mapElements Subtype.val) = cs := by
    have hrange : cs ∈ Set.range (List.map (SetConstraint.mapElements
        (Subtype.val : {f // f ∈ functions} → I))) := by
      rw [Set.range_list_map]
      exact fun c hc ↦ SetConstraint.exists_mapElements (hcs c hc)
    exact hrange
  have hsolve := restrict_solveConstraints iter hval functions.attach fuel cs'
  rw [List.attach_map_subtype_val, h] at hsolve
  have hmem : ∀ n f, f ∈ getPossibleFunctionsForExpr functions s n ↔
      ∃ hf : f ∈ functions, SetConstraint.Least cs' n ⟨f, hf⟩ := by
    intro n f
    obtain ⟨name, hsolves⟩ := solves_foldlM (List.mem_attach functions) cs' [] (fun _ ↦ n) _ _
      (solves_new _) hsolve.symm
    rw [List.nil_append] at hsolves
    have hiff : ∀ hf : f ∈ functions, f ∈ getPossibleFunctionsForExpr functions s n ↔
        SetConstraint.Least cs' n ⟨f, hf⟩ := by
      intro hf
      rw [← hsolves.bitAt_iff n, ← mem_getPossibleFunctionsForExpr (List.mem_attach functions),
        mem_getPossibleFunctionsForExpr_restrict hval, List.attach_map_subtype_val]
    refine ⟨fun hf ↦ ?_, fun ⟨hf, hleast⟩ ↦ (hiff hf).2 hleast⟩
    have hf' : f ∈ functions := by
      unfold getPossibleFunctionsForExpr at hf
      split at hf
      · cases hf
      · exact (List.mem_filter.1 hf).1
    exact ⟨hf', (hiff hf').1 hf⟩
  have hleast := SetConstraint.isSolution_least cs'
  intro c hc
  obtain ⟨c', hc', rfl⟩ := List.mem_map.1 hc
  have hc' := hleast c' hc'
  cases c' with
  | elementof f n => exact (hmem n f).2 ⟨f.2, hc'⟩
  | subseteq a b =>
    intro f hf
    obtain ⟨hf, hla⟩ := (hmem a f).1 hf
    exact (hmem b f).2 ⟨hf, hc' _ hla⟩
  | conditional f n a b =>
    intro hn g hg
    obtain ⟨_, hln⟩ := (hmem n f.1).1 hn
    obtain ⟨hg, hla⟩ := (hmem a g).1 hg
    exact (hmem b g).2 ⟨hg, hc' hln _ hla⟩

end CubicSolver

end Sipc
