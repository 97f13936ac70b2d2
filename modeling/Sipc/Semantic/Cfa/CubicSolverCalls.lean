import Sipc.Library.Fuel
import Sipc.Semantic.Cfa.FindPath

/-!
# The calls of the cubic solver

`propagateNodeChanges`, `activateConditionalConstraint`, `killCyclesAt` and `findPath` call one
another. A `Frame` is one call with its arguments and the state it starts in; `Calls f g` says that
while the frame `f` runs it reaches the call `g`, all that it called before having returned. What a
frame calls along the way is what `Calls` leads to.

All these functions return the same with more fuel (`propagateNodeChanges_mono`), so that fuel only
tells whether a call returns.
-/

set_option autoImplicit false
set_option relaxedAutoImplicit false

namespace Sipc.CubicSolver

open Library Relation

variable {N I : Type}

/-! ### More fuel -/

section Mono

variable {iter : IterationOrder}

theorem backtrack_mono {s : CubicSolver N I} {distances : CubicId → Option ℕ} {source : CubicId}
    {path : List CubicId} :
    ∀ (fuel k : ℕ) (curr : CubicId) (out : List CubicId),
      backtrack iter s distances source fuel curr out = some path →
      backtrack iter s distances source (fuel + k) curr out = some path
  | 0, _, _, _, h => by cases h
  | fuel + 1, k, curr, out, h => by
    rw [Nat.succ_add]
    unfold backtrack at h ⊢
    split_ifs at h ⊢
    · exact h
    · exact backtrack_mono fuel k _ _ h

theorem findPath_mono {s : CubicSolver N I} {source target : CubicId} {path : List CubicId}
    {fuel : ℕ} (k : ℕ) (h : findPath iter fuel source target s = some path) :
    findPath iter (fuel + k) source target s = some path := by
  unfold findPath at h ⊢
  simp only at h ⊢
  split at h
  · cases h
  · next distances hfound =>
    rw [findDistances_mono fuel k _ hfound]
    simp only
    split_ifs at h ⊢
    · exact h
    · exact backtrack_mono fuel k _ _ h

theorem firstPath_mono {s : CubicSolver N I} {n : CubicId} {path : List CubicId} {fuel : ℕ}
    (k : ℕ) : ∀ ts : List CubicId, firstPath iter fuel n s ts = some path →
      firstPath iter (fuel + k) n s ts = some path
  | [], h => h
  | t :: ts, h => by
    unfold firstPath at h ⊢
    split at h
    · cases h
    · next hfind =>
      rw [findPath_mono k hfind]
      exact firstPath_mono k ts h
    · next path' hne hfind =>
      rw [findPath_mono k hfind]
      cases path' with
      | nil => exact absurd rfl hne
      | cons x path' => exact h

theorem killCyclesAt_mono {result : CubicId × CubicSolver N I} :
    ∀ (fuel k : ℕ) (n : CubicId) (s : CubicSolver N I), killCyclesAt iter fuel n s = some result →
      killCyclesAt iter (fuel + k) n s = some result
  | 0, _, _, _, h => by cases h
  | fuel + 1, k, n, s, h => by
    rw [Nat.succ_add]
    unfold killCyclesAt at h ⊢
    split at h
    · cases h
    · next hfirst =>
      rw [firstPath_mono k _ hfirst]
      exact h
    · next path hne hfirst =>
      rw [firstPath_mono k _ hfirst]
      cases path with
      | nil => exact absurd rfl hne
      | cons t rest =>
        simp only [mergePath] at h ⊢
        exact killCyclesAt_mono fuel k _ _ h

variable {propagate propagate' : CubicId → CubicSolver N I → Option (CubicSolver N I)}

theorem activateWith_mono {fuel : ℕ} (k : ℕ) (h : ∀ x, Returns (propagate x) (propagate' x))
    (source target : N) :
    Returns (activateWith iter fuel propagate source target)
      (activateWith iter (fuel + k) propagate' source target) := by
  intro s s' hs
  unfold activateWith at hs ⊢
  split at hs
  · split_ifs at hs ⊢
    · exact hs
    · simp only at hs ⊢
      split at hs
      · cases hs
      · next n s₁ hkill =>
        rw [killCyclesAt_mono fuel k _ _ hkill]
        simp only
        split at hs
        · cases hs
        · next a' _ => exact h a' s₁ s' hs
  · cases hs

theorem activateIndex_mono [DecidableEq I]
    {activate activate' : N → N → CubicSolver N I → Option (CubicSolver N I)}
    (h : ∀ a b, Returns (activate a b) (activate' a b)) (node : CubicId) (i : I) :
    Returns (fun s ↦ activateIndex activate node s i) fun s ↦ activateIndex activate' node s i := by
  intro s s' hs
  simp only [activateIndex] at hs ⊢
  split_ifs at hs ⊢
  · exact foldlM_mono (fun p : N × N ↦ h p.1 p.2) _ _ s' hs
  · exact hs

theorem propagateTo_mono (h : ∀ x, Returns (propagate x) (propagate' x)) (node sups : CubicId) :
    Returns (fun s ↦ propagateTo propagate node s sups) fun s ↦ propagateTo propagate' node s sups := by
  intro s s' hs
  simp only [propagateTo] at hs ⊢
  split_ifs at hs ⊢
  exact h sups _ s' hs

theorem propagateNodeChanges_mono [DecidableEq I] {indices : List I} :
    ∀ (fuel k : ℕ) (node : CubicId), Returns (propagateNodeChanges (N := N) indices iter fuel node)
      (propagateNodeChanges indices iter (fuel + k) node)
  | 0, _, _, _, _, h => by cases h
  | fuel + 1, k, node, s, s', h => by
    have ih := @propagateNodeChanges_mono _ indices fuel k
    rw [Nat.succ_add]
    unfold propagateNodeChanges at h ⊢
    obtain ⟨s₁, h₁, h₂⟩ := Option.bind_eq_some_iff.mp h
    refine Option.bind_eq_some_iff.mpr ⟨s₁, ?_, ?_⟩
    · exact foldlM_mono (fun i ↦ activateIndex_mono (activateWith_mono k ih) node i) indices s s₁ h₁
    · exact foldlM_mono (fun y ↦ propagateTo_mono ih node y) _ s₁ s' h₂

end Mono

/-! ### Calls -/

/-- The two insertions of `activateConditionalConstraint`. -/
def link (a b : CubicId) (s : CubicSolver N I) : CubicSolver N I :=
  (s.modify a fun x ↦ { x with supsets := insert b x.supsets }).modify b
    fun x ↦ { x with subsets := insert a x.subsets }

/-- Clear the constraints that wait for a function at a node. -/
def clear [DecidableEq I] (node : CubicId) (i : I) (s : CubicSolver N I) : CubicSolver N I :=
  s.modify node fun x ↦ { x with
    conditionalConstraints := Function.update x.conditionalConstraints i [] }

/-- Add the bits of `node` to those of `sups`. -/
def addBits (node sups : CubicId) (s : CubicSolver N I) : CubicSolver N I :=
  s.modify sups fun x ↦ { x with
    bitvector := fun i ↦ x.bitvector i || (s.nodes node).bitvector i }

/-- A call of one of the functions: its arguments and the state in which it starts.
`addSubseteqConstraint` with both variables mapped is the same as `activateConditionalConstraint`. A
round of the outer loop of `killCyclesAt` counts as a call of its own. -/
inductive Frame (N I : Type)
  | findPath (source target : CubicId) (s : CubicSolver N I)
  | killCyclesAt (n : CubicId) (s : CubicSolver N I)
  | activateConditionalConstraint (source target : N) (s : CubicSolver N I)
  | propagateNodeChanges (node : CubicId) (s : CubicSolver N I)

/-- While the first call runs it makes the second one, everything before having returned. -/
inductive Calls [DecidableEq I] (indices : List I) (iter : IterationOrder) :
    Frame N I → Frame N I → Prop
  | findPath {n t : CubicId} {before after : List CubicId} {fuel : ℕ} {s : CubicSolver N I} :
    iter.list (s.nodes n).supsets = before ++ t :: after →
    firstPath iter fuel n s before = some [] →
    Calls indices iter (.killCyclesAt n s) (.findPath t n s)
  | collapsed {n n' : CubicId} {path : List CubicId} {fuel : ℕ} {s s' : CubicSolver N I} :
    firstPath iter fuel n s (iter.list (s.nodes n).supsets) = some path → path ≠ [] →
    mergePath iter path s = some (n', s') →
    Calls indices iter (.killCyclesAt n s) (.killCyclesAt n' s')
  | killCyclesAt {source target : N} {a b : CubicId} {s : CubicSolver N I} :
    s.dagmapping source = some a → s.dagmapping target = some b → a ≠ b →
    Calls indices iter (.activateConditionalConstraint source target s)
      (.killCyclesAt a (link a b s))
  | propagate {source target : N} {a b n a' : CubicId} {fuel : ℕ} {s s' : CubicSolver N I} :
    s.dagmapping source = some a → s.dagmapping target = some b → a ≠ b →
    CubicSolver.killCyclesAt iter fuel a (link a b s) = some (n, s') →
    s'.dagmapping source = some a' →
    Calls indices iter (.activateConditionalConstraint source target s)
      (.propagateNodeChanges a' s')
  | activate {node : CubicId} {is after : List I} {i : I} {done rest : List (N × N)} {p : N × N}
      {fuel : ℕ} {s s₁ s₂ : CubicSolver N I} :
    indices = is ++ i :: after →
    is.foldlM (activateIndex (activateWith iter fuel
      (CubicSolver.propagateNodeChanges indices iter fuel)) node) s = some s₁ →
    (s₁.nodes node).bitvector i = true →
    (s₁.nodes node).conditionalConstraints i = done ++ p :: rest →
    done.foldlM (fun s pair ↦ activateWith iter fuel
      (CubicSolver.propagateNodeChanges indices iter fuel) pair.1 pair.2 s) (clear node i s₁) =
        some s₂ →
    Calls indices iter (.propagateNodeChanges node s)
      (.activateConditionalConstraint p.1 p.2 s₂)
  | superset {node sups : CubicId} {done rest : List CubicId} {fuel : ℕ}
      {s s₁ s₂ : CubicSolver N I} :
    indices.foldlM (activateIndex (activateWith iter fuel
      (CubicSolver.propagateNodeChanges indices iter fuel)) node) s = some s₁ →
    iter.list (s₁.nodes node).supsets = done ++ sups :: rest →
    done.foldlM (propagateTo (CubicSolver.propagateNodeChanges indices iter fuel) node) s₁ =
      some s₂ →
    sups ≠ node →
    Calls indices iter (.propagateNodeChanges node s)
      (.propagateNodeChanges sups (addBits node sups s₂))

/-- The call that adding a constraint comes down to, once its variables have nodes. -/
def entry [DecidableEq N] [DecidableEq I] (s : CubicSolver N I) :
    SetConstraint N I → Option (Frame N I)
  | .elementof f n =>
    let s := s.addEmptyVariableIfNecessary n
    (s.dagmapping n).map fun x ↦ .propagateNodeChanges x (s.modify x fun x ↦ { x with
      bitvector := Function.update x.bitvector f true })
  | .subseteq a b =>
    some (.activateConditionalConstraint a b
      ((s.addEmptyVariableIfNecessary a).addEmptyVariableIfNecessary b))
  | .conditional f n a b =>
    let s := ((s.addEmptyVariableIfNecessary n).addEmptyVariableIfNecessary
      a).addEmptyVariableIfNecessary b
    (s.dagmapping n).map fun x ↦ .propagateNodeChanges x (s.modify x fun x ↦ { x with
      conditionalConstraints := Function.update x.conditionalConstraints f
        (x.conditionalConstraints f ++ [(a, b)]) })

/-- Every call of `findPath` that the call makes along the way returns a path back from its target, or
the empty vector. -/
def PathsReturn [DecidableEq I] (indices : List I) (iter : IterationOrder) (frame : Frame N I) :
    Prop :=
  ∀ source target s, ReflTransGen (Calls indices iter) frame (.findPath source target s) →
    ∃ fuel out, CubicSolver.findPath iter fuel source target s = some out ∧
      (out = [] ∨ PathBack s source target out.reverse)

theorem PathsReturn.of_calls [DecidableEq I] {indices : List I} {iter : IterationOrder}
    {f g : Frame N I} (h : PathsReturn indices iter f) (hcall : Calls indices iter f g) :
    PathsReturn indices iter g :=
  fun source target s hpath ↦ h source target s (hpath.head hcall)

end Sipc.CubicSolver
