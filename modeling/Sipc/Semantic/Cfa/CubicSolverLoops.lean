import Sipc.Semantic.Cfa.CubicSolverCalls

/-!
# The sets that the cubic solver iterates over

A loop over a `std::set` that stands on an element must not see that element erased: its iterator
would be invalid. Here the solver is a machine that takes one step at a time, with the activities that
are running on a stack, so that at every erasure one can tell which loops stand on which elements.
Unlike elsewhere the loop over `supsets` in `propagateNodeChanges` runs over the set as it is, from one
element to the next (`following`).

Elements are erased by `mergeNodes` only. The loops of `mergeNodes` and of `killCyclesAt` are safe from
it. The loop of `propagateNodeChanges` is not: a constraint activated further down may close a cycle
through the element it stands on (`not_safe_of_cycle`). A run is safe exactly as long as that does not
happen (`safe_iff_meets`).
-/

set_option autoImplicit false
set_option relaxedAutoImplicit false

namespace Sipc.CubicSolver

open Library Relation

variable {N I : Type}

/-! ### Erasures -/

/-- Which of the two sets of a node. -/
inductive Side
  | supsets
  | subsets
deriving DecidableEq

/-- A loop over a set of a node, and the element it stands on. -/
structure Loop where
  node : CubicId
  side : Side
  curr : CubicId
deriving DecidableEq

/-- An element erased from a set of a node, and the loops that are running then. -/
structure Erasure where
  node : CubicId
  side : Side
  elem : CubicId
  loops : List Loop
deriving DecidableEq

/-- The element is erased from a set over which a loop runs that stands on it. -/
def Erasure.Hits (e : Erasure) : Prop :=
  ⟨e.node, e.side, e.elem⟩ ∈ e.loops

section Erasures

variable (iter : IterationOrder)

/-- The erasures of `mergeNodes`, in two loops and at the end; the loops `outer` are running. -/
def mergeErasures (n1 n2 : CubicId) (s : CubicSolver N I) (outer : List Loop) : List Erasure :=
  let s₁ := (iter.list (s.nodes n2).supsets).foldl (relinkSupset n1 n2) s
  let s₂ := (iter.list (s₁.nodes n2).subsets).foldl (relinkSubset n1 n2) s₁
  (((iter.list (s.nodes n2).supsets).filter fun a ↦ n1 ≠ a).map fun a ↦
      ⟨a, .subsets, n2, ⟨n2, .supsets, a⟩ :: outer⟩) ++
    (((iter.list (s₁.nodes n2).subsets).filter fun a ↦ n1 ≠ a).map fun a ↦
      ⟨a, .supsets, n2, ⟨n2, .subsets, a⟩ :: outer⟩) ++
    (if n2 ∈ (s₂.nodes n1).supsets then [⟨n1, .supsets, n2, outer⟩] else []) ++
    (if n2 ∈ (s₂.nodes n1).subsets then [⟨n1, .subsets, n2, outer⟩] else [])

/-- The erasures of `mergePath`, which merges the nodes of a list into `a`. -/
def pathErasures (a : CubicId) (outer : List Loop) :
    List CubicId → CubicSolver N I → List Erasure
  | [], _ => []
  | b :: rest, s => mergeErasures iter a b s outer ++ pathErasures a outer rest (mergeNodes iter a b s)

end Erasures

/-! ### The machine -/

/-- What is running: the first loop of `propagateNodeChanges` with the functions left, the loop that
activates constraints with those left, the second loop of `propagateNodeChanges` with the element it
stands on. -/
inductive Activity (N I : Type)
  | functions (node : CubicId) (rest : List I)
  | constraints (rest : List (N × N))
  | supsets (node curr : CubicId)

/-- The solver, the call of `killCyclesAt` that is running, if any, with the source of the edge it is
for, the activities from the innermost one on, and the calls still to be made. -/
structure Config (N I : Type) where
  solver : CubicSolver N I
  collapsing : Option (N × CubicId)
  stack : List (Activity N I)
  calls : List (SetConstraint N I)

/-- A loop over a set, if the activity is one. -/
def Activity.loop : Activity N I → Option Loop
  | .supsets node curr => some ⟨node, .supsets, curr⟩
  | _ => none

/-- The loops over sets that are running. -/
def loopsOf (stack : List (Activity N I)) : List Loop :=
  stack.filterMap Activity.loop

/-- A new solver and the calls to be made. -/
def Config.start (calls : List (SetConstraint N I)) : Config N I where
  solver := new N I
  collapsing := none
  stack := []
  calls := calls

section Machine

variable [DecidableEq I] (indices : List I) (iter : IterationOrder)

/-- The element after the given one in a set as it is, or the first. -/
def following (set : Finset CubicId) : Option CubicId → Option CubicId
  | none => (iter.list set).head?
  | some curr => ((iter.list set).dropWhile fun x ↦ x ≠ curr).tail.head?

/-- The loop over the supersets of a node goes on with an element, or ends. -/
def goOn (c : Config N I) (node : CubicId) (stack : List (Activity N I)) :
    Option CubicId → Option (Config N I)
  | none => some { c with stack := stack }
  | some sups =>
    if sups = node then none
    else some { c with
      solver := addBits node sups c.solver
      stack := .functions sups indices :: .supsets node sups :: stack }

/-- One step of the solver. -/
def step [DecidableEq N] (fuel : ℕ) (c : Config N I) : Option (Config N I) :=
  match c.collapsing with
  | some (source, n) =>
    match firstPath iter fuel n c.solver (iter.list (c.solver.nodes n).supsets) with
    | none => none
    | some [] =>
      match c.solver.dagmapping source with
      | none => none
      | some a => some { c with collapsing := none, stack := .functions a indices :: c.stack }
    | some path =>
      match mergePath iter path c.solver with
      | none => none
      | some (n, s) => some { c with solver := s, collapsing := some (source, n) }
  | none =>
    match c.stack with
    | [] =>
      match c.calls with
      | [] => none
      | call :: calls =>
        match entry c.solver call with
        | some (.propagateNodeChanges x s) => some ⟨s, none, [.functions x indices], calls⟩
        | some (.activateConditionalConstraint a b s) => some ⟨s, none, [.constraints [(a, b)]], calls⟩
        | _ => none
    | .functions node (i :: is) :: stack =>
      if (c.solver.nodes node).bitvector i then
        some { c with
          solver := clear node i c.solver
          stack := .constraints ((c.solver.nodes node).conditionalConstraints i) ::
            .functions node is :: stack }
      else some { c with stack := .functions node is :: stack }
    | .functions node [] :: stack =>
      goOn indices c node stack (following iter (c.solver.nodes node).supsets none)
    | .supsets node curr :: stack =>
      goOn indices c node stack (following iter (c.solver.nodes node).supsets (some curr))
    | .constraints [] :: stack => some { c with stack := stack }
    | .constraints (p :: ps) :: stack =>
      match c.solver.dagmapping p.1, c.solver.dagmapping p.2 with
      | some a, some b =>
        if a = b then some { c with stack := .constraints ps :: stack }
        else some { c with
          solver := link a b c.solver
          collapsing := some (p.1, a)
          stack := .constraints ps :: stack }
      | _, _ => none

/-- The erasures of the next step. The loop of `killCyclesAt` stands on the source of the path. -/
def erasures (fuel : ℕ) (c : Config N I) : List Erasure :=
  match c.collapsing with
  | none => []
  | some (_, n) =>
    match firstPath iter fuel n c.solver (iter.list (c.solver.nodes n).supsets) with
    | some (t :: rest) => pathErasures iter t (⟨n, .supsets, t⟩ :: loopsOf c.stack) rest c.solver
    | _ => []

/-- The next step erases no element on which a loop over the same set stands. -/
def Safe (c : Config N I) : Prop :=
  ∀ fuel, ∀ e ∈ erasures iter fuel c, ¬ e.Hits

/-- If the next step merges a path, then no running loop over the supersets of a node stands on an
element that is merged away while the node is in use: it is not on the path, or the source of the
path, or the node was merged away before, earlier or earlier on the path. -/
def Meets (c : Config N I) : Prop :=
  ∀ fuel source n t rest, c.collapsing = some (source, n) →
    firstPath iter fuel n c.solver (iter.list (c.solver.nodes n).supsets) = some (t :: rest) →
    ∀ l ∈ loopsOf c.stack, ∀ before after, rest = before ++ l.curr :: after →
      InGraph c.solver l.node → l.node ∈ before

/-- The configurations of a run all of whose steps so far met the condition. -/
inductive Runs [DecidableEq N] (calls : List (SetConstraint N I)) : Config N I → Prop
  | start : Runs calls (.start calls)
  | step {c c' : Config N I} {fuel : ℕ} :
    Runs calls c → Meets iter c → step indices iter fuel c = some c' → Runs calls c'

end Machine

/-! ### One merge -/

section Merge

variable {name : CubicId → N} {iter : IterationOrder}

/-- Every loop runs over the supersets of a node that exists, and stands on one of them. -/
def Stands (s : CubicSolver N I) (loops : List Loop) : Prop :=
  ∀ l ∈ loops, l.side = .supsets ∧ l.node < s.created ∧ l.curr ∈ (s.nodes l.node).supsets

/-- A merge erases an element that a running loop stands on exactly if the loop is over the supersets
of a node in use, and stands on the node merged away. -/
theorem mergeErasures_safe_iff {P : CubicId → Prop} {n n1 n2 : CubicId} {s : CubicSolver N I}
    {loops : List Loop} (wf : WellFormed name P s) (h₁ : Live name s n1) (h₂ : Live name s n2)
    (hne : n1 ≠ n2) (hstands : Stands s loops) :
    (∀ e ∈ mergeErasures iter n1 n2 s (⟨n, .supsets, n1⟩ :: loops), ¬ e.Hits) ↔
      ∀ l ∈ loops, l.curr = n2 → ¬ InGraph s l.node := by
  have hself : n2 ∉ (s.nodes n2).supsets := fun hmem ↦ (wf.supsets n2 n2 h₂ hmem).2.2 rfl
  obtain ⟨-, hsup₁, hsub₁⟩ := foldl_relinkSupset n1 n2 (iter.list (s.nodes n2).supsets) s
  set s₁ := (iter.list (s.nodes n2).supsets).foldl (relinkSupset n1 n2) s with hs₁
  obtain ⟨-, -, hsup₂⟩ := foldl_relinkSubset n1 n2 (iter.list (s₁.nodes n2).subsets) s₁
  set s₂ := (iter.list (s₁.nodes n2).subsets).foldl (relinkSubset n1 n2) s₁ with hs₂
  have hsubsets : ∀ a, a ∈ (s₁.nodes n2).subsets ↔ a ∈ (s.nodes n2).subsets := by
    intro a
    have hn2 : n2 ∉ iter.list (s.nodes n2).supsets := fun h ↦ hself ((iter.mem_list _ _).mp h)
    rw [hsub₁]
    simp [hn2]
  have hsupsets : n2 ∈ (s.nodes n1).supsets → n2 ∈ (s₂.nodes n1).supsets := by
    intro h
    rw [hsup₂]
    exact Or.inr ⟨fun h ↦ h.2 rfl, (hsup₁ n1 n2).mpr (Or.inl h)⟩
  constructor
  · rintro hsafe l hl hcurr ⟨m, hm⟩
    obtain ⟨node, side, curr⟩ := l
    obtain ⟨rfl, -, hmem⟩ := hstands _ hl
    obtain rfl : curr = n2 := hcurr
    have hnode := wf.live m node hm
    by_cases hn1 : node = n1
    · subst hn1
      refine hsafe ⟨node, .supsets, curr, ⟨n, .supsets, node⟩ :: loops⟩ ?_
        (List.mem_cons_of_mem _ hl)
      refine List.mem_append_left _ (List.mem_append_right _ ?_)
      rw [if_pos (hsupsets hmem)]
      exact List.mem_singleton_self _
    · refine hsafe ⟨node, .supsets, curr, ⟨curr, .subsets, node⟩ :: ⟨n, .supsets, n1⟩ :: loops⟩ ?_
        (List.mem_cons_of_mem _ (List.mem_cons_of_mem _ hl))
      refine List.mem_append_left _ (List.mem_append_left _ (List.mem_append_right _ ?_))
      refine List.mem_map.mpr ⟨node, List.mem_filter.mpr ⟨(iter.mem_list _ _).mpr ?_, ?_⟩, rfl⟩
      · exact (hsubsets node).mpr (wf.supsets node curr hnode hmem).2.1
      · exact decide_eq_true (Ne.symm hn1)
  · -- the loops of `mergeNodes` and `killCyclesAt` run over another set or stand on another element
    intro hmeets e he hhits
    have hsubsets' : ∀ a, (⟨a, .subsets, n2⟩ : Loop) ∉ (⟨n, .supsets, n1⟩ : Loop) :: loops := by
      intro a ha
      rcases List.mem_cons.mp ha with ha | ha
      · cases ha
      · cases (hstands _ ha).1
    have houter : ∀ a, InGraph s a →
        (⟨a, .supsets, n2⟩ : Loop) ∉ (⟨n, .supsets, n1⟩ : Loop) :: loops := by
      intro a hin ha
      rcases List.mem_cons.mp ha with ha | ha
      · exact hne (Loop.mk.inj ha).2.2.symm
      · exact hmeets _ ha rfl hin
    rcases List.mem_append.mp he with he | he
    · rcases List.mem_append.mp he with he | he
      · rcases List.mem_append.mp he with he | he
        · obtain ⟨a, -, rfl⟩ := List.mem_map.mp he
          rcases List.mem_cons.mp hhits with h | h
          · cases show Side.subsets = Side.supsets from (Loop.mk.inj h).2.1
          · exact hsubsets' a h
        · obtain ⟨a, ha, rfl⟩ := List.mem_map.mp he
          have hmem := (hsubsets a).mp ((iter.mem_list _ _).mp (List.mem_filter.mp ha).1)
          rcases List.mem_cons.mp hhits with h | h
          · cases show Side.supsets = Side.subsets from (Loop.mk.inj h).2.1
          · exact houter a ⟨name a, (wf.subsets n2 a h₂ hmem).1⟩ h
      · split_ifs at he
        · obtain rfl := List.mem_singleton.mp he
          exact houter n1 ⟨name n1, h₁⟩ hhits
        · cases he
    · split_ifs at he
      · obtain rfl := List.mem_singleton.mp he
        exact hsubsets' n1 hhits
      · cases he

/-- A merge leaves the loops standing, if the condition is met. -/
theorem Stands.merged {P : CubicId → Prop} {n1 n2 : CubicId} {s s' : CubicSolver N I}
    {loops : List Loop} (h : Stands s loops) (hm : Merged n1 n2 s s') (wf : WellFormed name P s)
    (h₂ : Live name s n2) (hmeets : ∀ l ∈ loops, l.curr = n2 → ¬ InGraph s l.node)
    (h₁ : Live name s n1) : Stands s' loops := by
  intro l hl
  obtain ⟨hside, hlt, hmem⟩ := h l hl
  refine ⟨hside, hm.created ▸ hlt, ?_⟩
  by_cases hn1 : l.node = n1
  · have hcurr : l.curr ≠ n2 := fun hcurr ↦ hmeets l hl hcurr (hn1 ▸ ⟨name n1, h₁⟩)
    rw [hn1] at hmem ⊢
    exact (hm.supsets_left l.curr).mpr ⟨hcurr, Or.inl hmem⟩
  · refine (hm.supsets l.node l.curr hn1).mpr ?_
    by_cases hsub : l.node ∈ (s.nodes n2).subsets
    · have hlive := (wf.subsets n2 l.node h₂ hsub).1
      have hcurr : l.curr ≠ n2 := fun hcurr ↦ hmeets l hl hcurr ⟨name l.node, hlive⟩
      exact Or.inl ⟨hsub, Or.inr ⟨hcurr, hmem⟩⟩
    · exact Or.inr ⟨hsub, hmem⟩

/-- The condition on a path, merge by merge. -/
theorem meets_cons_iff {loops : List Loop} {a b : CubicId} {rest : List CubicId}
    {s s' : CubicSolver N I} (hm : Merged a b s s') (ha : InGraph s a) (hab : a ≠ b) :
    (∀ l ∈ loops, ∀ before after, b :: rest = before ++ l.curr :: after →
      InGraph s l.node → l.node ∈ before) ↔
    (∀ l ∈ loops, l.curr = b → ¬ InGraph s l.node) ∧
      ∀ l ∈ loops, ∀ before after, rest = before ++ l.curr :: after →
        InGraph s' l.node → l.node ∈ before := by
  constructor
  · intro h
    refine ⟨fun l hl hcurr hin ↦ ?_, fun l hl before after hsplit hin ↦ ?_⟩
    · exact List.not_mem_nil (h l hl [] rest (by rw [hcurr]; rfl) hin)
    · obtain ⟨hin, hne⟩ := (hm.inGraph_iff ha hab l.node).mp hin
      have hmem := h l hl (b :: before) after (by rw [hsplit]; rfl) hin
      exact (List.mem_cons.mp hmem).resolve_left hne
  · rintro ⟨hfirst, hrest⟩ l hl before after hsplit hin
    cases before with
    | nil => exact absurd hin (hfirst l hl (List.cons.inj hsplit).1.symm)
    | cons c before =>
      obtain ⟨rfl, hsplit'⟩ := List.cons.inj hsplit
      by_cases hne : l.node = b
      · exact List.mem_cons.mpr (Or.inl hne)
      · exact List.mem_cons_of_mem _
          (hrest l hl before after hsplit' ((hm.inGraph_iff ha hab l.node).mpr ⟨hin, hne⟩))

/-- Merging a path is safe exactly if the condition is met, and then the loops still stand. -/
theorem pathErasures_safe_iff {n a : CubicId} {loops : List Loop} :
    ∀ (rest : List CubicId) (P : CubicId → Prop) (s : CubicSolver N I),
      Mergeable name a rest P s → Stands s loops →
      ((∀ e ∈ pathErasures iter a (⟨n, .supsets, a⟩ :: loops) rest s, ¬ e.Hits) ↔
        ∀ l ∈ loops, ∀ before after, rest = before ++ l.curr :: after →
          InGraph s l.node → l.node ∈ before) ∧
      ((∀ l ∈ loops, ∀ before after, rest = before ++ l.curr :: after →
          InGraph s l.node → l.node ∈ before) →
        Stands (rest.foldl (fun s b ↦ mergeNodes iter a b s) s) loops)
  | [], _, s, _, hstands => by
    refine ⟨iff_of_true (fun e he ↦ ?_) fun l _ before after hsplit ↦ ?_, fun _ ↦ hstands⟩
    · cases he
    · cases before <;> cases hsplit
  | b :: rest, P, s, h, hstands => by
    obtain ⟨hab, hb, hm, hnext⟩ := h.step iter
    have hmerge := @mergeErasures_safe_iff _ _ _ iter _ n _ _ _ _ h.wellFormed h.survivor hb hab
      hstands
    have hcons := @meets_cons_iff _ _ loops _ _ rest _ _ hm ⟨name a, h.survivor⟩ hab
    have hsplit : (∀ e ∈ pathErasures iter a (⟨n, .supsets, a⟩ :: loops) (b :: rest) s, ¬ e.Hits) ↔
        (∀ e ∈ mergeErasures iter a b s (⟨n, .supsets, a⟩ :: loops), ¬ e.Hits) ∧
          ∀ e ∈ pathErasures iter a (⟨n, .supsets, a⟩ :: loops) rest (mergeNodes iter a b s),
            ¬ e.Hits := by
      rw [pathErasures]
      exact List.forall_mem_append
    rw [hsplit, hcons, hmerge, List.foldl_cons]
    by_cases hfirst : ∀ l ∈ loops, l.curr = b → ¬ InGraph s l.node
    · obtain ⟨hiff, hstands'⟩ := pathErasures_safe_iff rest _ _ hnext
        (hstands.merged hm h.wellFormed hb hfirst h.survivor)
      exact ⟨and_congr_right fun _ ↦ hiff, fun h ↦ hstands' h.2⟩
    · exact ⟨iff_of_false (fun h ↦ hfirst h.1) fun h ↦ hfirst h.1, fun h ↦ absurd h.1 hfirst⟩

end Merge

/-! ### Whole runs -/

section Run

variable {name : CubicId → N} {iter : IterationOrder}

@[simp] theorem loopsOf_functions (node : CubicId) (rest : List I) (stack : List (Activity N I)) :
    loopsOf (.functions node rest :: stack) = loopsOf stack := rfl

@[simp] theorem loopsOf_constraints (rest : List (N × N)) (stack : List (Activity N I)) :
    loopsOf (.constraints rest :: stack) = loopsOf stack := rfl

@[simp] theorem loopsOf_supsets (node curr : CubicId) (stack : List (Activity N I)) :
    loopsOf (.supsets node curr :: stack) = ⟨node, .supsets, curr⟩ :: loopsOf stack := rfl

theorem Stands.changedAt {x : CubicId} {s s' : CubicSolver N I} {loops : List Loop}
    (h : Stands s loops) (hchange : ChangedAt x s s') : Stands s' loops := by
  intro l hl
  rw [hchange.created, hchange.supsets]
  exact h l hl

theorem Stands.newEdge {a b : CubicId} {s s' : CubicSolver N I} {loops : List Loop}
    (h : Stands s loops) (hedge : NewEdge a b s s') : Stands s' loops := by
  intro l hl
  obtain ⟨hside, hlt, hmem⟩ := h l hl
  exact ⟨hside, hedge.created ▸ hlt, (hedge.supsets _ _).mpr (Or.inl hmem)⟩

theorem mem_of_following {set : Finset CubicId} {curr : Option CubicId} {x : CubicId}
    (h : following iter set curr = some x) : x ∈ set := by
  refine (iter.mem_list _ _).mp ?_
  cases curr with
  | none => exact List.mem_of_head? h
  | some curr =>
    exact List.dropWhile_subset _ (List.mem_of_mem_tail (List.mem_of_head? h))

/-- What holds of a configuration in a run. -/
structure Sound (name : CubicId → N) (c : Config N I) : Prop where
  wellFormed : WellFormed name (fun _ ↦ False) c.solver
  collapsing : ∀ source n, c.collapsing = some (source, n) → Live name c.solver n
  stands : Stands c.solver (loopsOf c.stack)
  functions : ∀ node rest, Activity.functions node rest ∈ c.stack → node < c.solver.created

theorem sound_start (calls : List (SetConstraint N I)) :
    Sound name (Config.start calls : Config N I) := by
  refine ⟨(solves_new name).wellFormed, fun _ _ h ↦ ?_, fun _ h ↦ ?_, fun _ _ h ↦ ?_⟩
  · cases h
  · cases h
  · cases h

/-- The loop over the supersets of a node goes on with one of them. -/
theorem goOn_sound {indices : List I} {c c' : Config N I} {node : CubicId}
    {stack : List (Activity N I)} {curr : Option CubicId}
    (h : goOn indices c node stack (following iter (c.solver.nodes node).supsets curr) = some c')
    (wf : WellFormed name (fun _ ↦ False) c.solver) (hnone : c.collapsing = none)
    (hnode : node < c.solver.created) (hstands : Stands c.solver (loopsOf stack))
    (hfunctions : ∀ node rest, Activity.functions node rest ∈ stack → node < c.solver.created) :
    Sound name c' := by
  rcases hnext : following iter (c.solver.nodes node).supsets curr with _ | sups
  · rw [hnext] at h
    obtain rfl := Option.some.inj h
    exact ⟨wf, fun _ _ h ↦ absurd (hnone.symm.trans h) (Option.some_ne_none _).symm, hstands,
      hfunctions⟩
  · have hmem := mem_of_following hnext
    have hlt := wf.known node sups hnode hmem
    rw [hnext, goOn] at h
    split_ifs at h
    obtain rfl := Option.some.inj h
    have hchange : ChangedAt sups c.solver (addBits node sups c.solver) :=
      changedAt_include c.solver node sups
    refine ⟨hchange.wellFormed wf,
      fun _ _ h ↦ absurd (hnone.symm.trans h) (Option.some_ne_none _).symm, ?_, ?_⟩
    · rw [loopsOf_functions, loopsOf_supsets]
      intro l hl
      rcases List.mem_cons.mp hl with rfl | hl
      · exact ⟨rfl, hchange.created ▸ hnode, by rw [hchange.supsets]; exact hmem⟩
      · exact hstands.changedAt hchange l hl
    · intro x rest hx
      rcases List.mem_cons.mp hx with hx | hx
      · obtain ⟨rfl, -⟩ := Activity.functions.inj hx
        exact hchange.created ▸ hlt
      · rcases List.mem_cons.mp hx with hx | hx
        · cases hx
        · exact hchange.created ▸ hfunctions x rest hx

variable [DecidableEq N]

theorem exists_wellFormed_addEmptyVariable {s : CubicSolver N I}
    (wf : WellFormed name (fun _ ↦ False) s) (m : N) :
    ∃ name', WellFormed name' (fun _ ↦ False) (s.addEmptyVariableIfNecessary m) := by
  rcases addEmptyVariableIfNecessary_cases s m with heq | ⟨hm, heq⟩
  · exact ⟨name, heq.symm ▸ wf⟩
  · obtain ⟨name', wf', -⟩ := wf.fresh hm
    exact ⟨name', heq.symm ▸ wf'⟩

variable [DecidableEq I] {indices : List I}

/-- A call starts with a well-formed heap. -/
theorem entry_cases {s : CubicSolver N I} (wf : WellFormed name (fun _ ↦ False) s)
    {call : SetConstraint N I} {frame : Frame N I} (h : entry s call = some frame) :
    ∃ (name' : CubicId → N) (s' : CubicSolver N I), WellFormed name' (fun _ ↦ False) s' ∧
      ((∃ x, x < s'.created ∧ frame = .propagateNodeChanges x s') ∨
        ∃ a b, frame = .activateConditionalConstraint a b s') := by
  cases call with
  | elementof f n =>
    obtain ⟨name₁, wf₁⟩ := exists_wellFormed_addEmptyVariable wf n
    obtain ⟨x, hx, rfl⟩ := Option.map_eq_some_iff.mp h
    have hchange : ChangedAt x (s.addEmptyVariableIfNecessary n)
        ((s.addEmptyVariableIfNecessary n).modify x fun x ↦ { x with
          bitvector := Function.update x.bitvector f true }) :=
      changedAt_modify (fun _ ↦ rfl) (fun _ ↦ rfl) fun n i hi ↦ by
        by_cases hif : i = f <;> simp [hif, hi]
    exact ⟨name₁, _, hchange.wellFormed wf₁, Or.inl ⟨x, wf₁.lt _ _ hx, rfl⟩⟩
  | subseteq a b =>
    obtain ⟨name₁, wf₁⟩ := exists_wellFormed_addEmptyVariable wf a
    obtain ⟨name₂, wf₂⟩ := exists_wellFormed_addEmptyVariable wf₁ b
    exact ⟨name₂, _, wf₂, Or.inr ⟨a, b, (Option.some.inj h).symm⟩⟩
  | conditional f n a b =>
    obtain ⟨name₁, wf₁⟩ := exists_wellFormed_addEmptyVariable wf n
    obtain ⟨name₂, wf₂⟩ := exists_wellFormed_addEmptyVariable wf₁ a
    obtain ⟨name₃, wf₃⟩ := exists_wellFormed_addEmptyVariable wf₂ b
    obtain ⟨x, hx, rfl⟩ := Option.map_eq_some_iff.mp h
    have hchange : ChangedAt x (((s.addEmptyVariableIfNecessary n).addEmptyVariableIfNecessary
        a).addEmptyVariableIfNecessary b) ((((s.addEmptyVariableIfNecessary
          n).addEmptyVariableIfNecessary a).addEmptyVariableIfNecessary b).modify x fun x ↦ { x with
            conditionalConstraints := Function.update x.conditionalConstraints f
              (x.conditionalConstraints f ++ [(a, b)]) }) :=
      changedAt_modify (fun _ ↦ rfl) (fun _ ↦ rfl) fun _ _ hi ↦ hi
    exact ⟨name₃, _, hchange.wellFormed wf₃, Or.inl ⟨x, wf₃.lt _ _ hx, rfl⟩⟩

/-- A round of `killCyclesAt`. -/
theorem Sound.collapse {c c' : Config N I} {fuel : ℕ} {source : N} {n : CubicId}
    (h : Sound name c) (hcollapsing : c.collapsing = some (source, n)) (hmeets : Meets iter c)
    (hstep : step indices iter fuel c = some c') : Sound name c' := by
  have hn := h.collapsing source n hcollapsing
  unfold step at hstep
  simp only [hcollapsing] at hstep
  split at hstep
  · cases hstep
  · split at hstep
    · cases hstep
    · next a ha =>
      obtain rfl := Option.some.inj hstep
      refine ⟨h.wellFormed, fun _ _ hx ↦ (by cases hx), h.stands, fun node rest hx ↦ ?_⟩
      rcases List.mem_cons.mp hx with hx | hx
      · obtain ⟨rfl, -⟩ := Activity.functions.inj hx
        exact h.wellFormed.lt _ _ ha
      · exact h.functions node rest hx
  · next path hne hpath =>
    obtain ⟨t, rest, rfl, -, -, -, -, -, -, hmergeable⟩ :=
      mergeable_of_firstPath iter h.wellFormed hn hne hpath
    have hm := mergedPath iter rest _ _ hmergeable
    have hstands := (@pathErasures_safe_iff _ _ _ iter n _ _ rest _ _ hmergeable h.stands).2
      (hmeets fuel source n t rest hcollapsing hpath)
    simp only [mergePath] at hstep
    obtain rfl := Option.some.inj hstep
    refine ⟨hm.wellFormed, fun source' n' hx ↦ ?_, hstands, fun node rest' hx ↦ ?_⟩
    · obtain ⟨-, rfl⟩ := Prod.mk.inj (Option.some.inj hx)
      exact hm.survivor
    · rw [hm.grows.created]
      exact h.functions node rest' hx

/-- A step that merges nothing. -/
theorem Sound.proceed {c c' : Config N I} {fuel : ℕ} (h : Sound name c)
    (hnone : c.collapsing = none) (hstep : step indices iter fuel c = some c') :
    ∃ name', Sound name' c' := by
  obtain ⟨solver, collapsing, stack, calls⟩ := c
  obtain rfl : collapsing = none := hnone
  obtain ⟨wf, -, hstands, hfunctions⟩ := h
  dsimp only at wf hstands hfunctions
  have hidle : ∀ source n, (none : Option (N × CubicId)) = some (source, n) → Live name solver n :=
    fun _ _ h ↦ (by cases h)
  cases stack with
  | nil =>
    cases calls with
    | nil => cases hstep
    | cons call calls =>
      simp only [step] at hstep
      rcases hentry : entry solver call with _ | frame
      · rw [hentry] at hstep
        cases hstep
      · obtain ⟨name', s', wf', ⟨x, hx, rfl⟩ | ⟨a, b, rfl⟩⟩ := entry_cases wf hentry
        · rw [hentry] at hstep
          obtain rfl := Option.some.inj hstep
          refine ⟨name', wf', fun _ _ h ↦ (by cases h), fun l hl ↦ (by cases hl), ?_⟩
          intro node rest hmem
          obtain ⟨rfl, -⟩ := Activity.functions.inj (List.mem_singleton.mp hmem)
          exact hx
        · rw [hentry] at hstep
          obtain rfl := Option.some.inj hstep
          refine ⟨name', wf', fun _ _ h ↦ (by cases h), fun l hl ↦ (by cases hl), ?_⟩
          intro node rest hmem
          cases List.mem_singleton.mp hmem
  | cons activity stack =>
    have hrest : ∀ node rest, Activity.functions node rest ∈ stack → node < solver.created :=
      fun node rest hmem ↦ hfunctions node rest (List.mem_cons_of_mem _ hmem)
    cases activity with
    | functions node is =>
      have hnode := hfunctions node is List.mem_cons_self
      rw [loopsOf_functions] at hstands
      cases is with
      | nil => exact ⟨name, goOn_sound hstep wf rfl hnode hstands hrest⟩
      | cons i is =>
        have hrest' : ∀ x rest, Activity.functions x rest ∈ Activity.functions node is :: stack →
            x < solver.created := by
          intro x rest hx
          rcases List.mem_cons.mp hx with hx | hx
          · obtain ⟨rfl, -⟩ := Activity.functions.inj hx
            exact hnode
          · exact hrest x rest hx
        simp only [step] at hstep
        split_ifs at hstep
        · obtain rfl := Option.some.inj hstep
          have hchange : ChangedAt node solver (clear node i solver) :=
            changedAt_clear solver node i
          refine ⟨name, hchange.wellFormed wf, fun _ _ h ↦ (by cases h),
            hstands.changedAt hchange, fun x rest hx ↦ ?_⟩
          rcases List.mem_cons.mp hx with hx | hx
          · cases hx
          · exact hchange.created ▸ hrest' x rest hx
        · obtain rfl := Option.some.inj hstep
          exact ⟨name, wf, hidle, hstands, hrest'⟩
    | supsets node curr =>
      rw [loopsOf_supsets] at hstands
      exact ⟨name, goOn_sound hstep wf rfl (hstands _ List.mem_cons_self).2.1
        (fun l hl ↦ hstands l (List.mem_cons_of_mem _ hl)) hrest⟩
    | constraints ps =>
      rw [loopsOf_constraints] at hstands
      cases ps with
      | nil =>
        obtain rfl := Option.some.inj hstep
        exact ⟨name, wf, hidle, hstands, hrest⟩
      | cons p ps =>
        have hrest' : ∀ x rest, Activity.functions x rest ∈ Activity.constraints ps :: stack →
            x < solver.created := by
          intro x rest hx
          rcases List.mem_cons.mp hx with hx | hx
          · cases hx
          · exact hrest x rest hx
        simp only [step] at hstep
        split at hstep
        · next a b ha hb =>
          split_ifs at hstep with hab
          · obtain rfl := Option.some.inj hstep
            exact ⟨name, wf, hidle, hstands, hrest'⟩
          · obtain rfl := Option.some.inj hstep
            have hedge : NewEdge a b solver (link a b solver) := newEdge_modify solver a b
            have hla := wf.live _ _ ha
            refine ⟨name, hedge.wellFormed wf hla (wf.live _ _ hb) hab, fun source n h ↦ ?_,
              hstands.newEdge hedge, fun x rest hx ↦ hedge.created ▸ hrest' x rest hx⟩
            obtain ⟨-, rfl⟩ := Prod.mk.inj (Option.some.inj h)
            exact (hedge.live_iff a).mpr hla
        · cases hstep

theorem exists_sound [Nonempty N] {calls : List (SetConstraint N I)} {c : Config N I}
    (h : Runs indices iter calls c) : ∃ name, Sound name c := by
  induction h with
  | start => exact ⟨fun _ ↦ Classical.arbitrary N, sound_start calls⟩
  | @step c c' fuel _ hmeets hstep ih =>
    obtain ⟨name, hsound⟩ := ih
    rcases hcollapsing : c.collapsing with _ | ⟨source, n⟩
    · exact hsound.proceed hcollapsing hstep
    · exact ⟨name, hsound.collapse hcollapsing hmeets hstep⟩

/-- In a run all of whose steps meet the condition no step erases an element on which a loop over the
same set stands: wherever such a run has come to, the next step is safe exactly if it meets the
condition. -/
theorem safe_iff_meets {calls : List (SetConstraint N I)} {c : Config N I}
    (h : Runs indices iter calls c) : Safe iter c ↔ Meets iter c := by
  rcases hcollapsing : c.collapsing with _ | ⟨source, n⟩
  · refine iff_of_true (fun fuel e he ↦ ?_) fun fuel source n t rest hsome ↦ ?_
    · rw [erasures, hcollapsing] at he
      cases he
    · rw [hcollapsing] at hsome
      cases hsome
  have : Nonempty N := ⟨source⟩
  obtain ⟨name, hsound⟩ := exists_sound h
  have hn := hsound.collapsing source n hcollapsing
  have hpath : ∀ fuel t rest,
      firstPath iter fuel n c.solver (iter.list (c.solver.nodes n).supsets) = some (t :: rest) →
      ((∀ e ∈ erasures iter fuel c, ¬ e.Hits) ↔
        ∀ l ∈ loopsOf c.stack, ∀ before after, rest = before ++ l.curr :: after →
          InGraph c.solver l.node → l.node ∈ before) := by
    intro fuel t rest hfirst
    obtain ⟨t', rest', hcons, -, -, -, -, -, -, hmergeable⟩ :=
      mergeable_of_firstPath iter hsound.wellFormed hn (List.cons_ne_nil t rest) hfirst
    obtain ⟨rfl, rfl⟩ := List.cons.inj hcons
    rw [erasures, hcollapsing]
    simp only [hfirst]
    exact (pathErasures_safe_iff rest _ _ hmergeable hsound.stands).1
  constructor
  · intro hsafe fuel source' n' t rest hsome hfirst
    rw [hcollapsing] at hsome
    obtain ⟨-, rfl⟩ := Prod.mk.inj (Option.some.inj hsome)
    exact (hpath fuel t rest hfirst).mp (hsafe fuel)
  · intro hmeets fuel
    rcases hfirst : firstPath iter fuel n c.solver (iter.list (c.solver.nodes n).supsets) with
      _ | path
    · intro e he
      rw [erasures, hcollapsing] at he
      simp only [hfirst] at he
      cases he
    · cases path with
      | nil =>
        intro e he
        rw [erasures, hcollapsing] at he
        simp only [hfirst] at he
        cases he
      | cons t rest =>
        exact (hpath fuel t rest hfirst).mpr (hmeets fuel source n t rest hcollapsing hfirst)

end Run

/-! ### Two runs -/

/-- Where nothing is merged, or no loop is running, the condition is met. -/
theorem meets_of_idle {iter : IterationOrder} {c : Config N I}
    (h : (c.collapsing.isNone || (loopsOf c.stack).isEmpty) = true) : Meets iter c := by
  intro _ source n _ _ hsome _ l hl
  rcases Bool.or_eq_true _ _ ▸ h with h | h
  · rw [hsome] at h
    cases h
  · rw [List.isEmpty_iff.mp h] at hl
    cases hl

section Steps

variable [DecidableEq N] [DecidableEq I] {indices : List I} {iter : IterationOrder} {fuel : ℕ}

variable (indices iter fuel) in
/-- Take steps one after the other. -/
def steps : ℕ → Config N I → Option (Config N I)
  | 0, c => some c
  | k + 1, c => (steps k c).bind (step indices iter fuel)

variable (indices iter) in
/-- A run leads from one configuration to the other. -/
def Reaches (c c' : Config N I) : Prop :=
  ReflTransGen (fun c c' ↦ ∃ fuel, step indices iter fuel c = some c') c c'

theorem reaches_of_steps {c : Config N I} :
    ∀ (k : ℕ) (c' : Config N I), steps indices iter fuel k c = some c' → Reaches indices iter c c'
  | 0, c', h => by
    obtain rfl := Option.some.inj h
    exact ReflTransGen.refl
  | k + 1, c', h => by
    obtain ⟨c₁, h₁, h₂⟩ := Option.bind_eq_some_iff.mp h
    exact (reaches_of_steps k c₁ h₁).tail ⟨fuel, h₂⟩

theorem runs_of_steps {calls : List (SetConstraint N I)} :
    ∀ (k : ℕ) (c : Config N I), steps indices iter fuel k (.start calls) = some c →
      (∀ j < k, ((steps indices iter fuel j (.start calls)).all fun c ↦
        c.collapsing.isNone || (loopsOf c.stack).isEmpty) = true) → Runs indices iter calls c
  | 0, c, h, _ => by
    obtain rfl := Option.some.inj h
    exact .start
  | k + 1, c, h, hidle => by
    obtain ⟨c₁, h₁, h₂⟩ := Option.bind_eq_some_iff.mp h
    have hk := hidle k k.lt_succ_self
    rw [h₁] at hk
    exact .step (runs_of_steps k c₁ h₁ fun j hj ↦ hidle j (hj.trans k.lt_succ_self))
      (meets_of_idle hk) h₂

end Steps

/-- The second of two inclusions closes a cycle; no loop is running when the two nodes are merged. -/
theorem safe_of_subseteq :
    Safe .creation ((steps [7].attach .creation 9 11
      (.start [.subseteq 0 1, .subseteq 1 0] : Config ℕ {f : ℕ // f ∈ [7]})).get (by decide)) :=
  (safe_iff_meets (runs_of_steps 11 _ (Option.some_get (by decide)).symm (by decide))).mpr
    (meets_of_idle (by decide))

/-- The function of `0` goes to `1`, where it activates the inclusion of `1` in `0`: while the loop over
the supersets of `0` stands on `1`, this node is merged into `0` and erased from them. -/
theorem not_safe_of_cycle :
    ∃ c : Config ℕ {f : ℕ // f ∈ [7]},
      Reaches [7].attach .creation (.start [.subseteq 0 1, .conditional ⟨7, by decide⟩ 1 1 0,
        .elementof ⟨7, by decide⟩ 0]) c ∧ ¬ Safe .creation c := by
  refine ⟨(steps [7].attach .creation 9 18 (.start [.subseteq 0 1,
    .conditional ⟨7, by decide⟩ 1 1 0, .elementof ⟨7, by decide⟩ 0])).get (by decide),
    reaches_of_steps 18 _ (Option.some_get (by decide)).symm, fun hsafe ↦ ?_⟩
  refine hsafe 9 ⟨0, .supsets, 1, [⟨1, .supsets, 0⟩, ⟨0, .supsets, 1⟩]⟩ (by decide) ?_
  exact List.mem_cons_of_mem _ (List.mem_singleton_self _)

end Sipc.CubicSolver
