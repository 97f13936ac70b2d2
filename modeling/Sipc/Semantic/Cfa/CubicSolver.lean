import Mathlib.Data.Finset.Lattice.Fold
import Mathlib.Data.List.Range
import Mathlib.Order.Lattice.Nat
import Sipc.Library.SetConstraints

/-!
# The cubic solver

`semantic/cfa/CubicSolver`. The solver keeps a heap of nodes, which are told apart by their number,
and a map from variables to nodes; `mergeNodes` makes several variables share one node and leaves the
other node behind, still held by the frames that were using it. A bit vector is indexed by the
functions the solver was built with, of which `indices` is the list.

The sets of nodes are ordered by address. An `IterationOrder` lists the elements of a set in any
order, and a loop over a set runs over the list of its elements at loop entry.

Every loop and recursion without an evident bound has fuel. `none` stands for a run that does not
return: the fuel ran out, an assertion failed or a null pointer was dereferenced.
-/

set_option autoImplicit false
set_option relaxedAutoImplicit false

namespace Sipc

open Library

/-- A node as the solver's sets hold it: a shared pointer. -/
abbrev CubicId := ℕ

/-- `CubicSolverNode`. -/
structure CubicSolverNode (N I : Type) where
  supsets : Finset CubicId
  subsets : Finset CubicId
  bitvector : I → Bool
  conditionalConstraints : I → List (N × N)

/-- The constructor of `CubicSolverNode`. -/
def CubicSolverNode.new (N I : Type) : CubicSolverNode N I where
  supsets := ∅
  subsets := ∅
  bitvector := fun _ ↦ false
  conditionalConstraints := fun _ ↦ []

/-- The order in which a loop visits the elements of a set. -/
structure IterationOrder where
  list : Finset CubicId → List CubicId
  mem_list : ∀ s x, x ∈ list s ↔ x ∈ s
  nodup : ∀ s, (list s).Nodup

/-- Visit nodes in the order in which they were created. -/
def IterationOrder.creation : IterationOrder where
  list := fun s ↦ (List.range (s.sup id + 1)).filter fun x ↦ x ∈ s
  mem_list := by
    intro s x
    rw [List.mem_filter, List.mem_range, decide_eq_true_iff]
    exact ⟨fun h ↦ h.2, fun h ↦ ⟨Nat.lt_succ_of_le (Finset.le_sup (f := id) h), h⟩⟩
  nodup := fun _ ↦ List.nodup_range.filter _

/-- `CubicSolver`. The nodes in use have the numbers below `created`. -/
structure CubicSolver (N I : Type) where
  nodes : CubicId → CubicSolverNode N I
  created : ℕ
  dagmapping : N → Option CubicId

namespace CubicSolver

variable {N I : Type}

/-- The solver of the constructor. -/
def new (N I : Type) : CubicSolver N I where
  nodes := fun _ ↦ CubicSolverNode.new N I
  created := 0
  dagmapping := fun _ ↦ none

/-- Change one node of the heap. -/
def modify (s : CubicSolver N I) (x : CubicId)
    (change : CubicSolverNode N I → CubicSolverNode N I) : CubicSolver N I where
  nodes := Function.update s.nodes x (change (s.nodes x))
  created := s.created
  dagmapping := s.dagmapping

section Nodes

variable (iter : IterationOrder)

/-- `CubicSolver::addEmptyVariableIfNecessary`. -/
def addEmptyVariableIfNecessary [DecidableEq N] (node : N) (s : CubicSolver N I) :
    CubicSolver N I :=
  match s.dagmapping node with
  | some _ => s
  | none =>
    { nodes := Function.update s.nodes s.created (CubicSolverNode.new N I)
      created := s.created + 1
      dagmapping := Function.update s.dagmapping node (some s.created) }

/-- The body of the loop of `mergeNodes` over the supersets of `n2`. -/
def relinkSupset (n1 n2 : CubicId) (s : CubicSolver N I) (a : CubicId) : CubicSolver N I :=
  if n1 = a then s
  else
    let s := s.modify a fun x ↦ { x with subsets := insert n1 (x.subsets.erase n2) }
    s.modify n1 fun x ↦ { x with supsets := insert a x.supsets }

/-- The body of the loop of `mergeNodes` over the subsets of `n2`. -/
def relinkSubset (n1 n2 : CubicId) (s : CubicSolver N I) (a : CubicId) : CubicSolver N I :=
  if n1 = a then s
  else
    let s := s.modify a fun x ↦ { x with supsets := insert n1 (x.supsets.erase n2) }
    s.modify n1 fun x ↦ { x with subsets := insert a x.subsets }

/-- `CubicSolver::mergeNodes`: everything of `n2` goes to `n1`. -/
def mergeNodes (n1 n2 : CubicId) (s : CubicSolver N I) : CubicSolver N I :=
  let s := { s with
    dagmapping := fun m ↦ if s.dagmapping m = some n2 then some n1 else s.dagmapping m }
  let s := s.modify n1 fun x ↦ { x with
    bitvector := fun i ↦ x.bitvector i || (s.nodes n2).bitvector i
    conditionalConstraints := fun i ↦
      x.conditionalConstraints i ++ (s.nodes n2).conditionalConstraints i }
  let s := (iter.list (s.nodes n2).supsets).foldl (relinkSupset n1 n2) s
  let s := (iter.list (s.nodes n2).subsets).foldl (relinkSubset n1 n2) s
  s.modify n1 fun x ↦ { x with
    supsets := x.supsets.erase n2
    subsets := x.subsets.erase n2 }

/-- `CubicSolver::mergePath`. The vector is kept last element first: its last two elements are merged
until one is left. -/
def mergePath : List CubicId → CubicSolver N I → Option (CubicId × CubicSolver N I)
  | [], _ => none
  | a :: path, s => some (a, path.foldl (fun s b ↦ mergeNodes iter a b s) s)

/-- The distances found so far, and the queue. -/
abbrev Search := (CubicId → Option ℕ) × List CubicId

/-- `populateDistances` of `CubicSolver::findPath`. -/
def populateDistances (s : CubicSolver N I) (node : CubicId) (search : Search) : Search :=
  (iter.list (s.nodes node).supsets).foldl
    (fun search n ↦
      if (search.1 n).isSome then search
      else (Function.update search.1 n (some ((search.1 node).getD 0 + 1)), search.2 ++ [n]))
    search

/-- The breadth-first loop of `CubicSolver::findPath`. -/
def findDistances (s : CubicSolver N I) (target : CubicId) :
    ℕ → Search → Option (CubicId → Option ℕ)
  | 0, _ => none
  | fuel + 1, search =>
    match search.2 with
    | [] => some search.1
    | curr :: _ =>
      let search := populateDistances iter s curr search
      if (search.1 target).isSome then some search.1
      else findDistances s target fuel (search.1, search.2.tail)

/-- The step backwards of `CubicSolver::findPath`: only the first node of `subsets` that has a
distance is looked at. -/
def stepBack (s : CubicSolver N I) (distances : CubicId → Option ℕ) (curr : CubicId) : CubicId :=
  match (iter.list (s.nodes curr).subsets).find? fun n ↦ (distances n).isSome with
  | none => curr
  | some n => if (distances n).getD 0 + 1 = (distances curr).getD 0 then n else curr

/-- The loop of `CubicSolver::findPath` that builds the path from the target back to the source, its
last element first. -/
def backtrack (s : CubicSolver N I) (distances : CubicId → Option ℕ) (source : CubicId) :
    ℕ → CubicId → List CubicId → Option (List CubicId)
  | 0, _, _ => none
  | fuel + 1, curr, out =>
    if curr = source then some out
    else
      let curr := stepBack iter s distances curr
      backtrack s distances source fuel curr (curr :: out)

/-- `CubicSolver::findPath`. -/
def findPath (fuel : ℕ) (source target : CubicId) (s : CubicSolver N I) :
    Option (List CubicId) :=
  let distances := Function.update (fun _ ↦ none) source (some 0)
  match findDistances iter s target fuel (populateDistances iter s source (distances, [])) with
  | none => none
  | some distances =>
    if (distances target).isNone then some []
    else backtrack iter s distances source fuel target [target]

/-- The first path from a node of the list to `n`, if there is one. -/
def firstPath (fuel : ℕ) (n : CubicId) (s : CubicSolver N I) :
    List CubicId → Option (List CubicId)
  | [] => some []
  | t :: ts =>
    match findPath iter fuel t n s with
    | none => none
    | some [] => firstPath fuel n s ts
    | some path => some path

/-- `CubicSolver::killCyclesAt`. -/
def killCyclesAt : ℕ → CubicId → CubicSolver N I → Option (CubicId × CubicSolver N I)
  | 0, _, _ => none
  | fuel + 1, n, s =>
    match firstPath iter fuel n s (iter.list (s.nodes n).supsets) with
    | none => none
    | some [] => some (n, s)
    | some path =>
      match mergePath iter path s with
      | none => none
      | some (n, s) => killCyclesAt fuel n s

end Nodes

section Solve

variable [DecidableEq I] (indices : List I) (iter : IterationOrder)

/-- `CubicSolver::activateConditionalConstraint`, and `addSubseteqConstraint` once both variables
have a node: the same statements. `propagate` is `propagateNodeChanges`. -/
def activateWith (fuel : ℕ) (propagate : CubicId → CubicSolver N I → Option (CubicSolver N I))
    (source target : N) (s : CubicSolver N I) : Option (CubicSolver N I) :=
  match s.dagmapping source, s.dagmapping target with
  | some a, some b =>
    if a = b then some s
    else
      let s := s.modify a fun x ↦ { x with supsets := insert b x.supsets }
      let s := s.modify b fun x ↦ { x with subsets := insert a x.subsets }
      match killCyclesAt iter fuel a s with
      | none => none
      | some (_, s) =>
        match s.dagmapping source with
        | none => none
        | some a => propagate a s
  | _, _ => none

/-- The first loop body of `propagateNodeChanges`: activate the constraints of `node` that wait for
the function `i`. -/
def activateIndex (activate : N → N → CubicSolver N I → Option (CubicSolver N I))
    (node : CubicId) (s : CubicSolver N I) (i : I) : Option (CubicSolver N I) :=
  if (s.nodes node).bitvector i then
    let constraints := (s.nodes node).conditionalConstraints i
    let s := s.modify node fun x ↦ { x with
      conditionalConstraints := Function.update x.conditionalConstraints i [] }
    constraints.foldlM (fun s pair ↦ activate pair.1 pair.2 s) s
  else some s

/-- The second loop body of `propagateNodeChanges`. -/
def propagateTo (propagate : CubicId → CubicSolver N I → Option (CubicSolver N I))
    (node : CubicId) (s : CubicSolver N I) (sups : CubicId) : Option (CubicSolver N I) :=
  let s := s.modify sups fun x ↦ { x with
    bitvector := fun i ↦ x.bitvector i || (s.nodes node).bitvector i }
  if sups = node then none else propagate sups s

/-- `CubicSolver::propagateNodeChanges`. -/
def propagateNodeChanges : ℕ → CubicId → CubicSolver N I → Option (CubicSolver N I)
  | 0, _, _ => none
  | fuel + 1, node, s => do
    let s ← indices.foldlM
      (activateIndex (activateWith iter fuel (propagateNodeChanges fuel)) node) s
    (iter.list (s.nodes node).supsets).foldlM
      (propagateTo (propagateNodeChanges fuel) node) s

variable [DecidableEq N]

/-- `CubicSolver::addElementofConstraint`. -/
def addElementofConstraint (fuel : ℕ) (fn : I) (node : N) (s : CubicSolver N I) :
    Option (CubicSolver N I) :=
  let s := s.addEmptyVariableIfNecessary node
  match s.dagmapping node with
  | none => none
  | some x =>
    propagateNodeChanges indices iter fuel x (s.modify x fun x ↦ { x with
      bitvector := Function.update x.bitvector fn true })

/-- `CubicSolver::addConditionalConstraint`. -/
def addConditionalConstraint (fuel : ℕ) (condition : I) (node source target : N)
    (s : CubicSolver N I) : Option (CubicSolver N I) :=
  let s := ((s.addEmptyVariableIfNecessary node).addEmptyVariableIfNecessary
    source).addEmptyVariableIfNecessary target
  match s.dagmapping node with
  | none => none
  | some x =>
    propagateNodeChanges indices iter fuel x (s.modify x fun x ↦ { x with
      conditionalConstraints := Function.update x.conditionalConstraints condition
        (x.conditionalConstraints condition ++ [(source, target)]) })

/-- `CubicSolver::addSubseteqConstraint`. -/
def addSubseteqConstraint (fuel : ℕ) (source target : N) (s : CubicSolver N I) :
    Option (CubicSolver N I) :=
  activateWith iter fuel (propagateNodeChanges indices iter fuel) source target
    ((s.addEmptyVariableIfNecessary source).addEmptyVariableIfNecessary target)

/-- Make the call that adds a constraint. -/
def addConstraint (fuel : ℕ) (s : CubicSolver N I) :
    SetConstraint N I → Option (CubicSolver N I)
  | .elementof f n => addElementofConstraint indices iter fuel f n s
  | .subseteq a b => addSubseteqConstraint indices iter fuel a b s
  | .conditional f n a b => addConditionalConstraint indices iter fuel f n a b s

/-- Add the constraints of a list in order to a new solver. -/
def solveConstraints (fuel : ℕ) (constraints : List (SetConstraint N I)) :
    Option (CubicSolver N I) :=
  constraints.foldlM (addConstraint indices iter fuel) (new N I)

/-- `CubicSolver::getPossibleFunctionsForExpr`. -/
def getPossibleFunctionsForExpr (s : CubicSolver N I) (n : N) : List I :=
  match s.dagmapping n with
  | none => []
  | some x => indices.filter fun i ↦ (s.nodes x).bitvector i

end Solve

/-! ### The effect of the primitive steps -/

theorem modify_nodes (s : CubicSolver N I) (x : CubicId)
    (change : CubicSolverNode N I → CubicSolverNode N I) (y : CubicId) :
    (s.modify x change).nodes y = if y = x then change (s.nodes x) else s.nodes y :=
  Function.update_apply s.nodes x (change (s.nodes x)) y

@[simp] theorem modify_dagmapping (s : CubicSolver N I) (x : CubicId)
    (change : CubicSolverNode N I → CubicSolverNode N I) :
    (s.modify x change).dagmapping = s.dagmapping := rfl

@[simp] theorem modify_created (s : CubicSolver N I) (x : CubicId)
    (change : CubicSolverNode N I → CubicSolverNode N I) :
    (s.modify x change).created = s.created := rfl

/-- The heaps differ only in the edges between nodes. -/
structure SameBits (s s' : CubicSolver N I) : Prop where
  created : s'.created = s.created
  dagmapping : s'.dagmapping = s.dagmapping
  bitvector : ∀ x, (s'.nodes x).bitvector = (s.nodes x).bitvector
  conditional : ∀ x, (s'.nodes x).conditionalConstraints = (s.nodes x).conditionalConstraints

theorem SameBits.refl (s : CubicSolver N I) : SameBits s s :=
  ⟨rfl, rfl, fun _ ↦ rfl, fun _ ↦ rfl⟩

theorem SameBits.trans {s s' s'' : CubicSolver N I} (h : SameBits s s') (h' : SameBits s' s'') :
    SameBits s s'' :=
  ⟨h'.created.trans h.created, h'.dagmapping.trans h.dagmapping,
    fun x ↦ (h'.bitvector x).trans (h.bitvector x),
    fun x ↦ (h'.conditional x).trans (h.conditional x)⟩

theorem relinkSupset_spec (n1 n2 : CubicId) (s : CubicSolver N I) (a : CubicId) :
    SameBits s (relinkSupset n1 n2 s a) ∧
    (∀ x y, y ∈ ((relinkSupset n1 n2 s a).nodes x).supsets ↔
      y ∈ (s.nodes x).supsets ∨ (x = n1 ∧ y = a ∧ a ≠ n1)) ∧
    ∀ x y, y ∈ ((relinkSupset n1 n2 s a).nodes x).subsets ↔
      (x = a ∧ a ≠ n1 ∧ (y = n1 ∨ (y ≠ n2 ∧ y ∈ (s.nodes x).subsets))) ∨
        (¬ (x = a ∧ a ≠ n1) ∧ y ∈ (s.nodes x).subsets) := by
  unfold relinkSupset
  split_ifs with h
  · exact ⟨SameBits.refl s, by grind, by grind⟩
  · refine ⟨⟨rfl, rfl, fun x ↦ ?_, fun x ↦ ?_⟩, fun x y ↦ ?_, fun x y ↦ ?_⟩ <;>
      simp only [modify_nodes] <;> split_ifs <;> grind

theorem relinkSubset_spec (n1 n2 : CubicId) (s : CubicSolver N I) (a : CubicId) :
    SameBits s (relinkSubset n1 n2 s a) ∧
    (∀ x y, y ∈ ((relinkSubset n1 n2 s a).nodes x).subsets ↔
      y ∈ (s.nodes x).subsets ∨ (x = n1 ∧ y = a ∧ a ≠ n1)) ∧
    ∀ x y, y ∈ ((relinkSubset n1 n2 s a).nodes x).supsets ↔
      (x = a ∧ a ≠ n1 ∧ (y = n1 ∨ (y ≠ n2 ∧ y ∈ (s.nodes x).supsets))) ∨
        (¬ (x = a ∧ a ≠ n1) ∧ y ∈ (s.nodes x).supsets) := by
  unfold relinkSubset
  split_ifs with h
  · exact ⟨SameBits.refl s, by grind, by grind⟩
  · refine ⟨⟨rfl, rfl, fun x ↦ ?_, fun x ↦ ?_⟩, fun x y ↦ ?_, fun x y ↦ ?_⟩ <;>
      simp only [modify_nodes] <;> split_ifs <;> grind

theorem foldl_relinkSupset (n1 n2 : CubicId) :
    ∀ (l : List CubicId) (s : CubicSolver N I),
      SameBits s (l.foldl (relinkSupset n1 n2) s) ∧
      (∀ x y, y ∈ ((l.foldl (relinkSupset n1 n2) s).nodes x).supsets ↔
        y ∈ (s.nodes x).supsets ∨ (x = n1 ∧ y ∈ l ∧ y ≠ n1)) ∧
      ∀ x y, y ∈ ((l.foldl (relinkSupset n1 n2) s).nodes x).subsets ↔
        (x ∈ l ∧ x ≠ n1 ∧ (y = n1 ∨ (y ≠ n2 ∧ y ∈ (s.nodes x).subsets))) ∨
          (¬ (x ∈ l ∧ x ≠ n1) ∧ y ∈ (s.nodes x).subsets)
  | [], s => ⟨SameBits.refl s, by simp, by simp⟩
  | a :: l, s => by
    obtain ⟨hbits, hsup, hsub⟩ := relinkSupset_spec n1 n2 s a
    obtain ⟨hbits', hsup', hsub'⟩ := foldl_relinkSupset n1 n2 l (relinkSupset n1 n2 s a)
    refine ⟨hbits.trans hbits', fun x y ↦ ?_, fun x y ↦ ?_⟩
    · rw [List.foldl_cons, hsup', hsup, List.mem_cons]
      grind
    · rw [List.foldl_cons, hsub', hsub, List.mem_cons]
      grind

theorem foldl_relinkSubset (n1 n2 : CubicId) :
    ∀ (l : List CubicId) (s : CubicSolver N I),
      SameBits s (l.foldl (relinkSubset n1 n2) s) ∧
      (∀ x y, y ∈ ((l.foldl (relinkSubset n1 n2) s).nodes x).subsets ↔
        y ∈ (s.nodes x).subsets ∨ (x = n1 ∧ y ∈ l ∧ y ≠ n1)) ∧
      ∀ x y, y ∈ ((l.foldl (relinkSubset n1 n2) s).nodes x).supsets ↔
        (x ∈ l ∧ x ≠ n1 ∧ (y = n1 ∨ (y ≠ n2 ∧ y ∈ (s.nodes x).supsets))) ∨
          (¬ (x ∈ l ∧ x ≠ n1) ∧ y ∈ (s.nodes x).supsets)
  | [], s => ⟨SameBits.refl s, by simp, by simp⟩
  | a :: l, s => by
    obtain ⟨hbits, hsub, hsup⟩ := relinkSubset_spec n1 n2 s a
    obtain ⟨hbits', hsub', hsup'⟩ := foldl_relinkSubset n1 n2 l (relinkSubset n1 n2 s a)
    refine ⟨hbits.trans hbits', fun x y ↦ ?_, fun x y ↦ ?_⟩
    · rw [List.foldl_cons, hsub', hsub, List.mem_cons]
      grind
    · rw [List.foldl_cons, hsup', hsup, List.mem_cons]
      grind

/-- What `mergeNodes` does to the heap, node by node. -/
structure Merged (n1 n2 : CubicId) (s s' : CubicSolver N I) : Prop where
  created : s'.created = s.created
  dagmapping : ∀ m, s'.dagmapping m = if s.dagmapping m = some n2 then some n1 else s.dagmapping m
  bitvector_left : ∀ i, (s'.nodes n1).bitvector i =
    ((s.nodes n1).bitvector i || (s.nodes n2).bitvector i)
  bitvector : ∀ x, x ≠ n1 → (s'.nodes x).bitvector = (s.nodes x).bitvector
  conditional_left : ∀ i, (s'.nodes n1).conditionalConstraints i =
    (s.nodes n1).conditionalConstraints i ++ (s.nodes n2).conditionalConstraints i
  conditional : ∀ x, x ≠ n1 →
    (s'.nodes x).conditionalConstraints = (s.nodes x).conditionalConstraints
  supsets_left : ∀ y, y ∈ (s'.nodes n1).supsets ↔
    y ≠ n2 ∧ (y ∈ (s.nodes n1).supsets ∨ (y ∈ (s.nodes n2).supsets ∧ y ≠ n1))
  supsets : ∀ x y, x ≠ n1 → (y ∈ (s'.nodes x).supsets ↔
    (x ∈ (s.nodes n2).subsets ∧ (y = n1 ∨ (y ≠ n2 ∧ y ∈ (s.nodes x).supsets))) ∨
      (x ∉ (s.nodes n2).subsets ∧ y ∈ (s.nodes x).supsets))
  subsets_left : ∀ y, y ∈ (s'.nodes n1).subsets ↔
    y ≠ n2 ∧ (y ∈ (s.nodes n1).subsets ∨ (y ∈ (s.nodes n2).subsets ∧ y ≠ n1))
  subsets : ∀ x y, x ≠ n1 → (y ∈ (s'.nodes x).subsets ↔
    (x ∈ (s.nodes n2).supsets ∧ (y = n1 ∨ (y ≠ n2 ∧ y ∈ (s.nodes x).subsets))) ∨
      (x ∉ (s.nodes n2).supsets ∧ y ∈ (s.nodes x).subsets))

/-- Merging two distinct nodes, when the second has no edge to itself. -/
theorem merged_mergeNodes (iter : IterationOrder) {n1 n2 : CubicId} {s : CubicSolver N I}
    (hne : n1 ≠ n2) (hsup : n2 ∉ (s.nodes n2).supsets) :
    Merged n1 n2 s (mergeNodes iter n1 n2 s) := by
  -- the state after the bits, then after each of the two loops, and the final state
  set s₁ := ({ s with
    dagmapping := fun m ↦ if s.dagmapping m = some n2 then some n1 else s.dagmapping m } :
      CubicSolver N I).modify n1 fun x ↦ { x with
    bitvector := fun i ↦ x.bitvector i || (s.nodes n2).bitvector i
    conditionalConstraints := fun i ↦
      x.conditionalConstraints i ++ (s.nodes n2).conditionalConstraints i } with hs₁
  have hsup₁ : ∀ x, (s₁.nodes x).supsets = (s.nodes x).supsets := by
    intro x
    rw [hs₁, modify_nodes]
    split_ifs with h <;> simp [h]
  have hsub₁ : ∀ x, (s₁.nodes x).subsets = (s.nodes x).subsets := by
    intro x
    rw [hs₁, modify_nodes]
    split_ifs with h <;> simp [h]
  obtain ⟨hbits₂, hsup₂, hsub₂⟩ :=
    foldl_relinkSupset n1 n2 (iter.list (s₁.nodes n2).supsets) s₁
  set s₂ := (iter.list (s₁.nodes n2).supsets).foldl (relinkSupset n1 n2) s₁ with hs₂
  obtain ⟨hbits₃, hsub₃, hsup₃⟩ :=
    foldl_relinkSubset n1 n2 (iter.list (s₂.nodes n2).subsets) s₂
  set s₃ := (iter.list (s₂.nodes n2).subsets).foldl (relinkSubset n1 n2) s₂ with hs₃
  have hs' : mergeNodes iter n1 n2 s = s₃.modify n1 fun x ↦ { x with
      supsets := x.supsets.erase n2
      subsets := x.subsets.erase n2 } := rfl
  simp only [iter.mem_list, hsup₁] at hsup₂ hsub₂
  simp only [iter.mem_list] at hsup₃ hsub₃
  have hmem₂ : ∀ x, x ∈ (s₂.nodes n2).subsets ↔ x ∈ (s.nodes n2).subsets := by
    intro x
    rw [hsub₂, hsub₁]
    grind
  have hbits := hbits₂.trans hbits₃
  rw [hs']
  have hfinal : ∀ x, x ≠ n1 → (s₃.modify n1 fun x ↦ { x with
      supsets := x.supsets.erase n2, subsets := x.subsets.erase n2 }).nodes x = s₃.nodes x := by
    intro x hx
    rw [modify_nodes, if_neg hx]
  have hleft : (s₃.modify n1 fun x ↦ { x with
      supsets := x.supsets.erase n2, subsets := x.subsets.erase n2 }).nodes n1 =
      { s₃.nodes n1 with
        supsets := (s₃.nodes n1).supsets.erase n2, subsets := (s₃.nodes n1).subsets.erase n2 } := by
    rw [modify_nodes, if_pos rfl]
  constructor
  · exact hbits.created
  · intro m
    exact congrFun hbits.dagmapping m
  · intro i
    rw [hleft]
    refine (congrFun (hbits.bitvector n1) i).trans ?_
    rw [hs₁, modify_nodes, if_pos rfl]
  · intro x hx
    rw [hfinal x hx, hbits.bitvector, hs₁, modify_nodes, if_neg hx]
  · intro i
    rw [hleft]
    refine (congrFun (hbits.conditional n1) i).trans ?_
    rw [hs₁, modify_nodes, if_pos rfl]
  · intro x hx
    rw [hfinal x hx, hbits.conditional, hs₁, modify_nodes, if_neg hx]
  · intro y
    rw [hleft]
    simp only [Finset.mem_erase, hsup₃, hsup₂, hmem₂]
    grind
  · intro x y hx
    rw [hfinal x hx]
    simp only [hsup₃, hsup₂, hmem₂]
    grind
  · intro y
    rw [hleft]
    simp only [Finset.mem_erase, hsub₃, hsub₂, hsub₁]
    grind
  · intro x y hx
    rw [hfinal x hx]
    simp only [hsub₃, hsub₂, hsub₁]
    grind

end CubicSolver

end Sipc
