import Sipc.Semantic.Types.Unifier

/-!
# What the unifier computes

The calls of `add` and `solve` a client makes are run in order (`Unifier.run`). `UnifyInvariant` is
what one call of `unify` preserves: the classes are closed under decomposition up to the pending pairs,
they hold nothing that a given decomposing equivalence does not hold, and their representatives are
proper where they can be. Run to the end it says that the classes of a solved unifier are those of
`LeastDecomposing` (`Unifier.Sound`), and that unification throws only on constraints that no tree
assignment solves.
-/

set_option autoImplicit false
set_option relaxedAutoImplicit false

namespace Sipc

open Library

/-! ### One call preserves the invariant -/

/-- The invariant of unification while the pairs of `pending` are still to be unified: `goals` are the
pairs unification started from, `R` bounds the classes from above. -/
structure UnifyInvariant (R : TipType → TipType → Prop) (goals pending : List (TipType × TipType))
    (U : TypeForest) : Prop where
  closed : typeView.ClosedUpTo U.rep pending
  proper : typeView.ProperRep U.rep
  bounded : ∀ s t, U.rep s = U.rep t → R s t
  pending_bounded : ∀ p ∈ pending, R p.1 p.2
  goals_joined : ∀ p ∈ goals, TermView.Joined U.rep pending p.1 p.2

namespace UnifyInvariant

variable {R : TipType → TipType → Prop} {goals pending : List (TipType × TipType)}
  {U U' : TypeForest} {s t a b : TipType}

theorem joined_of_resolved (hkeep : ∀ c d, U.rep c = U.rep d → U'.rep c = U'.rep d)
    (hst : U'.rep s = U'.rep t) {pending' : List (TipType × TipType)}
    (hsub : ∀ p ∈ pending, p ∈ pending') {c d : TipType}
    (h : TermView.Joined U.rep ((s, t) :: pending) c d) :
    TermView.Joined U'.rep pending' c d := by
  refine h.mono hkeep ?_
  intro x y hxy
  rcases List.mem_cons.mp hxy with heq | hmem
  · obtain ⟨rfl, rfl⟩ := Prod.mk.inj heq
    exact TermView.Joined.of_rep_eq hst
  · exact TermView.Joined.of_mem (hsub _ hmem)

/-- A pair in one class is resolved. -/
theorem same (h : UnifyInvariant R goals ((s, t) :: pending) U) (hst : U.rep s = U.rep t)
    (hrep : U'.rep = U.rep) : UnifyInvariant R goals pending U' := by
  have hjoined : ∀ c d, TermView.Joined U.rep ((s, t) :: pending) c d →
      TermView.Joined U.rep pending c d := fun c d hcd ↦
    joined_of_resolved (fun _ _ h ↦ h) hst (fun _ hp ↦ hp) hcd
  constructor
  · rw [hrep]
    intro x y hx hy hxy
    obtain ⟨hmatch, hargs⟩ := h.closed x y hx hy hxy
    exact ⟨hmatch, fun c d hcd ↦ hjoined c d (hargs c d hcd)⟩
  · rw [hrep]
    exact h.proper
  · rw [hrep]
    exact h.bounded
  · exact fun p hp ↦ h.pending_bounded p (List.mem_cons_of_mem _ hp)
  · rw [hrep]
    exact fun p hp ↦ hjoined _ _ (h.goals_joined p hp)

theorem joins_keep (hjoin : Joins U U' a b) {c d : TipType} (h : U.rep c = U.rep d) :
    U'.rep c = U'.rep d := by
  rw [hjoin.rep_apply, hjoin.rep_apply, h]

/-- Joining the classes of related terms stays below `R`. -/
theorem bounded_joins (hR : Equivalence R) (h : UnifyInvariant R goals ((s, t) :: pending) U)
    (hjoin : Joins U U' a b)
    (hpair : (U.rep s = a ∧ U.rep t = b) ∨ (U.rep s = b ∧ U.rep t = a)) :
    ∀ x y, U'.rep x = U'.rep y → R x y := by
  have hst : R s t := h.pending_bounded _ List.mem_cons_self
  have hroot : ∀ x y r, U.rep x = r → U.rep y = r → R x y := fun x y r hx hy ↦
    h.bounded x y (hx.trans hy.symm)
  -- a term of the class of `a` against a term of the class of `b`
  have hacross : ∀ x y, U.rep x = a → U.rep y = b → R x y := by
    intro x y hx hy
    rcases hpair with ⟨hs, ht⟩ | ⟨hs, ht⟩
    · exact hR.trans (hroot x s a hx hs) (hR.trans hst (hroot t y b ht hy))
    · exact hR.trans (hroot x t a hx ht) (hR.trans (hR.symm hst) (hroot s y b hs hy))
  intro x y hxy
  rw [hjoin.rep_eq] at hxy
  rcases (UnionForest.rep_link_eq_iff hjoin.root_left hjoin.root_right hjoin.ne x y).mp hxy with
    h' | ⟨hx, hy⟩ | ⟨hx, hy⟩
  · exact h.bounded x y h'
  · exact hacross x y hx hy
  · exact hR.symm (hacross y x hy hx)

theorem joins_resolves (hjoin : Joins U U' a b)
    (hpair : (U.rep s = a ∧ U.rep t = b) ∨ (U.rep s = b ∧ U.rep t = a)) :
    U'.rep s = U'.rep t := by
  rw [hjoin.rep_eq]
  exact (UnionForest.rep_link_eq_iff hjoin.root_left hjoin.root_right hjoin.ne s t).mpr
    (Or.inr hpair)

/-- Joining a class without proper terms to another resolves the pair. -/
theorem var (hR : Equivalence R) (h : UnifyInvariant R goals ((s, t) :: pending) U)
    (hjoin : Joins U U' a b)
    (hpair : (U.rep s = a ∧ U.rep t = b) ∨ (U.rep s = b ∧ U.rep t = a))
    (hvar : ¬ typeView.Proper a) : UnifyInvariant R goals pending U' := by
  obtain ⟨hclosed, hproper⟩ := TermView.ClosedUpTo.link_var (F := U.forest) h.closed h.proper
    hjoin.root_left hjoin.root_right hjoin.ne hvar hpair
  constructor
  · rw [hjoin.rep_eq]
    exact hclosed
  · rw [hjoin.rep_eq]
    exact hproper
  · exact bounded_joins hR h hjoin hpair
  · exact fun p hp ↦ h.pending_bounded p (List.mem_cons_of_mem _ hp)
  · exact fun p hp ↦ joined_of_resolved (fun _ _ h ↦ joins_keep hjoin h)
      (joins_resolves hjoin hpair) (fun _ hp ↦ hp) (h.goals_joined p hp)

/-- Joining two matching classes trades the pair for the pairs of their arguments. -/
theorem cons (hR : Equivalence R) (hdec : typeView.Decomposes R)
    (h : UnifyInvariant R goals ((s, t) :: pending) U) (hjoin : Joins U U' (U.rep s) (U.rep t))
    (hproper : typeView.Proper (U.rep s)) (hmatch : typeView.Match (U.rep s) (U.rep t)) :
    UnifyInvariant R goals ((U.rep s).arguments.zip (U.rep t).arguments ++ pending) U' := by
  obtain ⟨hclosed, hprop⟩ := TermView.ClosedUpTo.link_args (F := U.forest) h.closed h.proper
    hjoin.root_left hjoin.root_right hjoin.ne hproper hmatch rfl rfl
  have hrep : R (U.rep s) (U.rep t) := by
    have hs : R (U.rep s) s := h.bounded _ _ (U.rep_rep s)
    have ht : R t (U.rep t) := h.bounded _ _ (U.rep_rep t).symm
    exact hR.trans hs (hR.trans (h.pending_bounded _ List.mem_cons_self) ht)
  constructor
  · rw [hjoin.rep_eq]
    exact hclosed
  · rw [hjoin.rep_eq]
    exact hprop
  · exact bounded_joins hR h hjoin (Or.inl ⟨rfl, rfl⟩)
  · intro p hp
    rcases List.mem_append.mp hp with hp | hp
    · exact hdec _ _ hrep hproper hmatch p.1 p.2 hp
    · exact h.pending_bounded p (List.mem_cons_of_mem _ hp)
  · exact fun p hp ↦ joined_of_resolved (fun _ _ h ↦ joins_keep hjoin h)
      (joins_resolves hjoin (Or.inl ⟨rfl, rfl⟩)) (fun _ hp ↦ List.mem_append_right _ hp)
      (h.goals_joined p hp)

end UnifyInvariant

/-- What a terminated run has established: the invariant for the pairs that remain, or two terms
that clash and that `R` relates. -/
def RunOutcome (R : TipType → TipType → Prop) (goals pending : List (TipType × TipType)) :
    Except UnificationError TypeForest → Prop
  | .ok U => UnifyInvariant R goals pending U
  | .error _ => ∃ s t, R s t ∧ typeView.Clash s t

/-- If `unify` resolves the first pending pair, a loop resolves all its pairs. -/
theorem unifyEach_outcome {R : TipType → TipType → Prop} {goals : List (TipType × TipType)}
    {unify : TipType → TipType → TypeForest → Option (Except UnificationError TypeForest)}
    (h : ∀ s t pending U r, UnifyInvariant R goals ((s, t) :: pending) U →
      unify s t U = some r → RunOutcome R goals pending r) :
    ∀ (ps pending : List (TipType × TipType)) (U : TypeForest)
      (r : Except UnificationError TypeForest), UnifyInvariant R goals (ps ++ pending) U →
      unifyEach unify ps U = some r → RunOutcome R goals pending r
  | [], pending, U, r, hU, hr => by
    obtain rfl := Option.some.inj hr
    exact hU
  | p :: ps, pending, U, r, hU, hr => by
    unfold unifyEach at hr
    cases hp : unify p.1 p.2 U with
    | none =>
      rw [hp] at hr
      cases hr
    | some r₁ =>
      have h₁ := h p.1 p.2 (ps ++ pending) U r₁ hU hp
      rw [hp] at hr
      cases r₁ with
      | error e =>
        obtain rfl := Option.some.inj hr
        exact h₁
      | ok U₁ => exact unifyEach_outcome h ps pending U₁ r h₁ hr

/-- `unify` resolves the first pending pair. -/
theorem unify_outcome {R : TipType → TipType → Prop} {goals : List (TipType × TipType)}
    (hR : Equivalence R) (hdec : typeView.Decomposes R) :
    ∀ (fuel : ℕ) (s t : TipType) (pending : List (TipType × TipType)) (U : TypeForest)
      (r : Except UnificationError TypeForest), UnifyInvariant R goals ((s, t) :: pending) U →
      unify fuel s t U = some r → RunOutcome R goals pending r := by
  intro fuel
  induction fuel with
  | zero => intro s t pending U r _ hr; cases hr
  | succ fuel ih =>
    intro s t pending U r hU hr
    rcases unify_cases fuel s t U with
      ⟨hst, U', hr', hrep⟩ | ⟨a, b, U', hpair, hvar, hjoin, hr'⟩ | ⟨U', hproper, hmatch, hjoin, hr'⟩ |
      ⟨hclash, e, hr'⟩
    · rw [hr'] at hr
      obtain rfl := Option.some.inj hr
      exact hU.same hst hrep
    · rw [hr'] at hr
      obtain rfl := Option.some.inj hr
      exact hU.var hR hjoin hpair hvar
    · rw [hr'] at hr
      exact unifyEach_outcome ih _ pending U' r (hU.cons hR hdec hjoin hproper hmatch) hr
    · rw [hr'] at hr
      obtain rfl := Option.some.inj hr
      refine ⟨U.rep s, U.rep t, ?_, hclash⟩
      have hs : R (U.rep s) s := hU.bounded _ _ (U.rep_rep s)
      have ht : R t (U.rep t) := hU.bounded _ _ (U.rep_rep t).symm
      exact hR.trans hs (hR.trans (hU.pending_bounded _ List.mem_cons_self) ht)

/-! ### Runs of a unifier -/

/-- The equations a list of constraints states. -/
def Equations (constraints : List TypeConstraint) (s t : TipType) : Prop :=
  ∃ c ∈ constraints, c.lhs = s ∧ c.rhs = t

/-- The least equivalence that contains the constraints and passes to arguments. -/
def Entails (constraints : List TypeConstraint) : TipType → TipType → Prop :=
  typeView.LeastDecomposing (Equations constraints)

theorem Entails.mono {cs ds : List TypeConstraint} (h : ∀ c ∈ cs, c ∈ ds) {s t : TipType}
    (hst : Entails cs s t) : Entails ds s t :=
  TermView.LeastDecomposing.mono (fun _ _ ⟨c, hc, hst⟩ ↦ ⟨c, h c hc, hst⟩) hst

namespace Unifier

/-- What holds between two calls of `add` and `solve`: nothing is pending, and terms of one class are
entailed to be equal. -/
structure Sound (u : Unifier) : Prop where
  closed : typeView.ClosedUpTo u.unionFind.rep []
  proper : typeView.ProperRep u.unionFind.rep
  entailed : ∀ s t, u.unionFind.rep s = u.unionFind.rep t → Entails u.constraints s t

/-- After `solve` every stored constraint holds between representatives. -/
structure Solved (u : Unifier) : Prop extends Sound u where
  satisfied : ∀ c ∈ u.constraints, u.unionFind.rep c.lhs = u.unionFind.rep c.rhs

theorem sound_empty : Sound empty := by
  have hrep : ∀ t, empty.unionFind.rep t = t := fun _ ↦ rfl
  constructor
  · intro s t _ _ hst
    rw [hrep, hrep] at hst
    subst hst
    refine ⟨⟨rfl, rfl⟩, fun a b hab ↦ ?_⟩
    obtain ⟨i, hi⟩ := List.mem_iff_getElem?.mp hab
    obtain ⟨ha, hb⟩ := List.getElem?_zip_eq_some.mp hi
    rw [ha] at hb
    exact TermView.Joined.of_rep_eq (congrArg _ (Option.some.inj hb))
  · exact fun t ht ↦ ht
  · intro s t hst
    rw [hrep, hrep] at hst
    exact hst ▸ TermView.LeastDecomposing.refl s

theorem Sound.add {u : Unifier} (h : Sound u) (constrs : List TypeConstraint) :
    Sound (u.add constrs) := by
  have hrep : (u.add constrs).unionFind.rep = u.unionFind.rep := UnionFind.rep_add _ _
  constructor
  · rw [hrep]
    exact h.closed
  · rw [hrep]
    exact h.proper
  · rw [hrep]
    exact fun s t hst ↦ (h.entailed s t hst).mono fun c hc ↦ List.mem_append_left _ hc

theorem Sound.invariant {u : Unifier} (h : Sound u) :
    UnifyInvariant (Entails u.constraints) (u.constraints.map TypeConstraint.pair)
      (u.constraints.map TypeConstraint.pair ++ []) u.unionFind := by
  constructor
  · exact TermView.ClosedUpTo.mono (fun a b hab ↦ by cases hab) h.closed
  · exact h.proper
  · exact h.entailed
  · rw [List.append_nil]
    intro p hp
    obtain ⟨c, hc, rfl⟩ := List.mem_map.mp hp
    exact TermView.LeastDecomposing.base ⟨c, hc, rfl, rfl⟩
  · rw [List.append_nil]
    exact fun p hp ↦ TermView.Joined.of_mem hp

theorem solve_cases (u : Unifier) :
    ∃ r, u.solveWith u.fuel = some r ∧ u.solve = r.map fun unionFind ↦ { u with unionFind } := by
  obtain ⟨r, hr⟩ := Option.isSome_iff_exists.mp u.solveWith_isSome
  exact ⟨r, hr, solve_eq hr⟩

/-- `solve` either joins the sides of every constraint, or the constraints entail a clash. -/
theorem Sound.solve {u : Unifier} (h : Sound u) :
    (∃ u', u.solve = .ok u' ∧ u'.constraints = u.constraints ∧ Solved u') ∨
      ((∃ e, u.solve = .error e) ∧
        ∃ s t, Entails u.constraints s t ∧ typeView.Clash s t) := by
  obtain ⟨r, hr, hsolve⟩ := u.solve_cases
  have houtcome : RunOutcome (Entails u.constraints) _ [] r :=
    unifyEach_outcome (unify_outcome (TermView.LeastDecomposing.equivalence _)
      (TermView.LeastDecomposing.decomposes _) u.fuel) _ [] u.unionFind r h.invariant hr
  cases r with
  | error e => exact Or.inr ⟨⟨e, hsolve⟩, houtcome⟩
  | ok U =>
    refine Or.inl ⟨_, hsolve, rfl, ?_⟩
    constructor
    · exact ⟨houtcome.closed, houtcome.proper, houtcome.bounded⟩
    · intro c hc
      exact (houtcome.goals_joined _ (List.mem_map.mpr ⟨c, hc, rfl⟩)).rep_eq

/-- The classes of a solved unifier are those of the least decomposing equivalence. -/
theorem Solved.rep_eq_iff {u : Unifier} (h : Solved u) (s t : TipType) :
    u.unionFind.rep s = u.unionFind.rep t ↔ Entails u.constraints s t := by
  constructor
  · exact h.entailed s t
  · refine h.closed.rep_eq ?_
    rintro s t ⟨c, hc, rfl, rfl⟩
    exact h.satisfied c hc

/-- A call a client makes. -/
inductive Call
  | add (constrs : List TypeConstraint)
  | solve

/-- Make one call; a throw ends the run. -/
def call (u : Unifier) : Call → Except UnificationError Unifier
  | .add constrs => .ok (u.add constrs)
  | .solve => u.solve

/-- Make the calls of a list in order. -/
def run (calls : List Call) (u : Unifier) : Except UnificationError Unifier :=
  calls.foldlM call u

/-- The constraints the calls of a list add. -/
def added : List Call → List TypeConstraint
  | [] => []
  | .add constrs :: calls => constrs ++ added calls
  | .solve :: calls => added calls

theorem added_append_solve (calls : List Call) : added (calls ++ [.solve]) = added calls := by
  induction calls with
  | nil => rfl
  | cons c calls ih => cases c <;> simp [added, ih]

/-- A run of calls that ends in `solve` either returns a solved unifier that holds the constraints
added, or throws, and then the constraints added entail a clash. -/
theorem run_cases (calls : List Call) :
    ∀ u : Unifier, Sound u →
      (∃ u', run (calls ++ [.solve]) u = .ok u' ∧
        u'.constraints = u.constraints ++ added calls ∧ Solved u') ∨
      ((∃ e, run (calls ++ [.solve]) u = .error e) ∧
        ∃ s t, Entails (u.constraints ++ added calls) s t ∧ typeView.Clash s t) := by
  induction calls with
  | nil =>
    intro u hu
    have hrun : run [.solve] u = u.solve := by
      unfold run
      rw [List.foldlM_cons]
      exact bind_pure u.solve
    rw [List.nil_append, hrun, added, List.append_nil]
    exact hu.solve
  | cons c calls ih =>
    intro u hu
    cases c with
    | add constrs =>
      have hconstraints : (u.add constrs).constraints ++ added calls =
          u.constraints ++ added (.add constrs :: calls) := List.append_assoc _ _ _
      rw [← hconstraints]
      exact ih (u.add constrs) (hu.add constrs)
    | solve =>
      have hrun : run (.solve :: calls ++ [.solve]) u =
          u.solve >>= run (calls ++ [.solve]) := rfl
      rw [hrun]
      rcases hu.solve with ⟨u', hsolve, hconstraints, hsolved⟩ | ⟨⟨e, he⟩, s, t, hst, hclash⟩
      · rw [hsolve, added, ← hconstraints]
        exact ih u' hsolved.toSound
      · refine Or.inr ⟨⟨e, by rw [he]; rfl⟩, s, t, hst.mono fun c hc ↦ ?_, hclash⟩
        exact List.mem_append_left _ hc

end Unifier

/-! ### Solutions over regular trees -/

/-- The tree label of a class. Constraints without recursive types never meet the last case. -/
def TipType.Head.label : TipType.Head → TipType.TipCtor
  | .cons c => c
  | .mu _ _ => .absentField

/-- An assignment of regular trees to type variables, extended to all terms along their constructors,
that makes the two sides of every constraint equal. -/
structure IsSolution (constraints : List TypeConstraint) (σ : TipType → Library.Tree TipType.TipCtor) :
    Prop where
  regular : ∀ v, Library.Tree.Regular (σ (.var v))
  respects : ∀ t c, t.head = some (.cons c) → σ t = Library.Tree.node c (t.arguments.map σ)
  solves : ∀ c ∈ constraints, σ c.lhs = σ c.rhs

/-- The two sides of a constraint are free of recursive types. -/
def TypeConstraint.MuFree (c : TypeConstraint) : Prop :=
  c.lhs.MuFree ∧ c.rhs.MuFree

theorem TipType.MuFree.head {t : TipType} (h : t.MuFree) {k : TipType.Head}
    (hk : t.head = some k) : ∃ c, k = .cons c := by
  have hmu := h.isMu_eq_false
  cases t <;> simp [TipType.isMu, TipType.head] at hmu hk <;> exact ⟨_, hk.symm⟩

/-- Constraints that have a solution entail no clash. -/
theorem IsSolution.not_clash {constraints : List TypeConstraint}
    {σ : TipType → Library.Tree TipType.TipCtor} (hσ : IsSolution constraints σ)
    (hmu : ∀ c ∈ constraints, c.MuFree) {s t : TipType} (h : Entails constraints s t) :
    ¬ typeView.Clash s t := by
  have hinterprets : typeView.Interprets TipType.MuFree TipType.Head.label σ := by
    intro t k ht hk
    obtain ⟨c, rfl⟩ := ht.head hk
    exact hσ.respects t c hk
  refine hinterprets.not_clash ?_ ?_ (fun t ht a ha ↦ ht.of_mem_arguments ha) ?_ h
  · rintro s t ⟨c, hc, rfl, rfl⟩
    exact hσ.solves c hc
  · rintro s t ⟨c, hc, rfl, rfl⟩
    exact hmu c hc
  · intro s t h k hs ht hh hk hlabel
    obtain ⟨c, rfl⟩ := hs.head hh
    obtain ⟨d, rfl⟩ := ht.head hk
    exact congrArg TipType.Head.cons hlabel

/-- Following the representatives of a solved unifier solves its constraints, whatever the labels of
the recursive types and of the classes without a proper type. -/
theorem Unifier.Solved.isSolution {u : Unifier} (h : u.Solved)
    {label : TipType.Head → TipType.TipCtor} (hlabel : ∀ c, label (.cons c) = c)
    (free : TipType → TipType.TipCtor) :
    IsSolution u.constraints (typeView.solution label free u.unionFind.rep) := by
  constructor
  · intro v
    refine TermView.regular_solution (U := insert (.var v) u.terms.toFinset)
      (Finset.mem_insert_self _ _) ?_
    intro s hs a ha
    refine Finset.mem_insert_of_mem (List.mem_toFinset.mpr ?_)
    by_cases hs' : s ∈ u.terms
    · exact u.terms_arguments (u.terms_rep hs') ha
    · rcases Finset.mem_insert.mp hs with rfl | hs
      · -- a variable the unifier has never seen represents itself
        have hrep : u.unionFind.rep (.var v) = .var v := UnionFind.rep_of_not_mem_keys
          fun hkey ↦ hs' (TipType.mem_subtermsList _ (List.mem_append_left _ hkey))
        rw [hrep] at ha
        cases ha
      · exact absurd (List.mem_toFinset.mp hs) hs'
  · intro t c hc
    have hnode : typeView.solution label free u.unionFind.rep t =
        Library.Tree.node (label (.cons c))
          (t.arguments.map (typeView.solution label free u.unionFind.rep)) :=
      TermView.interprets_solution (S := fun _ ↦ True) h.closed h.proper
        (fun t ↦ u.unionFind.rep_rep t) t (.cons c) trivial hc
    rwa [hlabel] at hnode
  · exact fun c hc ↦ TermView.solution_eq (h.satisfied c hc)

/-- Any sequence of `add` and `solve` calls that ends in `solve` completes exactly when the constraints
added have a common solution over regular trees. When it completes, the classes of the union-find
structure are those of the least equivalence that contains the constraints and is closed under
decomposition, and the representative of a class is proper whenever the class holds a proper type. -/
theorem unifier_solves_iff_solvable (calls : List Unifier.Call)
    (hmu : ∀ c ∈ Unifier.added calls, c.MuFree) :
    ((∃ u, Unifier.run (calls ++ [.solve]) .empty = .ok u) ↔
      ∃ σ, IsSolution (Unifier.added calls) σ) ∧
    ∀ u, Unifier.run (calls ++ [.solve]) .empty = .ok u →
      (∀ s t, (u.unionFind.find s).1 = (u.unionFind.find t).1 ↔
        Entails (Unifier.added calls) s t) ∧
      ∀ s t, Entails (Unifier.added calls) s t → s.isProperType = true →
        (u.unionFind.find t).1.isProperType = true := by
  rcases Unifier.run_cases calls .empty Unifier.sound_empty with
    ⟨u, hrun, hconstraints, hsolved⟩ | ⟨⟨e, hrun⟩, s, t, hst, hclash⟩
  · replace hconstraints : u.constraints = Unifier.added calls := hconstraints
    refine ⟨⟨fun _ ↦ ?_, fun _ ↦ ⟨u, hrun⟩⟩, ?_⟩
    · rw [← hconstraints]
      have hlabel : ∀ c, TipType.Head.label (.cons c) = c := fun _ ↦ rfl
      exact ⟨_, hsolved.isSolution hlabel fun _ ↦ .absentField⟩
    · intro u' hrun'
      obtain rfl : u = u' := Except.ok.inj (hrun.symm.trans hrun')
      refine ⟨fun s t ↦ ?_, fun s t hst hs ↦ ?_⟩
      · rw [UnionFind.find_fst, UnionFind.find_fst, ← hconstraints]
        exact hsolved.rep_eq_iff s t
      · rw [← hconstraints, ← hsolved.rep_eq_iff] at hst
        rw [UnionFind.find_fst, ← hst, ← proper_iff]
        exact hsolved.proper s ((proper_iff s).mpr hs)
  · refine ⟨⟨?_, ?_⟩, ?_⟩
    · rintro ⟨u, hu⟩
      rw [hrun] at hu
      cases hu
    · rintro ⟨σ, hσ⟩
      exact absurd hclash (hσ.not_clash hmu hst)
    · intro u hu
      rw [hrun] at hu
      cases hu

/-- Two constraints make `x` the recursive type of pointers to itself: both calls complete. -/
theorem unifier_solves_iff_solvable_recursive :
    (∃ u, Unifier.run ([.add [⟨.tipVar 0, .ref (.tipVar 1)⟩], .add [⟨.tipVar 1, .tipVar 0⟩]] ++
      [.solve]) .empty = .ok u) ↔
      ∃ σ, IsSolution [⟨.tipVar 0, .ref (.tipVar 1)⟩, ⟨.tipVar 1, .tipVar 0⟩] σ :=
  (unifier_solves_iff_solvable
    [.add [⟨.tipVar 0, .ref (.tipVar 1)⟩], .add [⟨.tipVar 1, .tipVar 0⟩]]
    (by unfold TypeConstraint.MuFree; decide)).1

end Sipc
