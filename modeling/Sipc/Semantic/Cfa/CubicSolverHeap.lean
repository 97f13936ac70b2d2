import Mathlib.Data.List.Chain
import Sipc.Semantic.Cfa.CubicSolver

/-!
# The heap of the cubic solver

Nodes that were merged away stay on the heap, held by the frames that still work on them and reached
through the edges of other such nodes. `name x` is the variable for which the node `x` was created; a
node is `Live` while that variable is mapped to it. `WellFormed` states what holds of the heap between
any two merges: among live nodes the two directions of an edge agree, and a node merged away has an
edge to a node that stands for the same live node.

`Settles D E s s'` is what a piece of the computation guarantees: every live node of `s'` is `Clean`,
or in the set `E` that is still to be processed, or outside `D` and not touched since `s`. Pieces
compose (`Settles.trans`). `Below S val s` bounds the heap from above by a solution `S` of the
constraints; it survives every step that the constraints justify. Both are proved here of each step
that changes the heap: merging a path (`mergedPath`), collapsing cycles (`killCyclesAt_spec`), changing
one node (`ChangedAt.settles`) and adding an edge (`NewEdge.settles`).
-/

set_option autoImplicit false
set_option relaxedAutoImplicit false

namespace Sipc.CubicSolver

open Library

variable {N I : Type}

/-! ### Paths -/

section Paths

variable (iter : IterationOrder) (s : CubicSolver N I) (distances : CubicId → Option ℕ)

/-- A step of a path: an edge of `subsets` along which the distance grows by one. -/
def PathStep (x y : CubicId) : Prop :=
  x ∈ (s.nodes y).subsets ∧ (distances x).getD 0 + 1 = (distances y).getD 0

theorem stepBack_cases (curr : CubicId) :
    stepBack iter s distances curr = curr ∨
      PathStep s distances (stepBack iter s distances curr) curr := by
  unfold stepBack
  split
  · exact Or.inl rfl
  · next n hn =>
    split_ifs with h
    · have hmem := List.mem_of_find?_eq_some hn
      exact Or.inr ⟨(iter.mem_list _ _).mp hmem, h⟩
    · exact Or.inl rfl

/-- Once a step backwards stays where it is, the loop never leaves. -/
theorem backtrack_eq_none {source curr : CubicId} (hne : curr ≠ source)
    (hstuck : stepBack iter s distances curr = curr) :
    ∀ (fuel : ℕ) (out : List CubicId), backtrack iter s distances source fuel curr out = none
  | 0, _ => rfl
  | fuel + 1, out => by
    unfold backtrack
    rw [if_neg hne, hstuck]
    exact backtrack_eq_none hne hstuck fuel (curr :: out)

theorem backtrack_spec {source : CubicId} :
    ∀ (fuel : ℕ) (curr : CubicId) (tail path : List CubicId),
      backtrack iter s distances source fuel curr (curr :: tail) = some path →
      List.IsChain (PathStep s distances) (curr :: tail) →
      (∃ rest, path = source :: rest) ∧ List.IsChain (PathStep s distances) path ∧
        path.getLast? = (curr :: tail).getLast?
  | 0, _, _, _, h, _ => by cases h
  | fuel + 1, curr, tail, path, h, hchain => by
    unfold backtrack at h
    split_ifs at h with hcurr
    · obtain rfl := Option.some.inj h
      subst hcurr
      exact ⟨⟨tail, rfl⟩, hchain, rfl⟩
    · rcases stepBack_cases iter s distances curr with hstuck | hstep
      · rw [hstuck, backtrack_eq_none iter s distances hcurr hstuck] at h
        cases h
      · obtain ⟨hhead, hpath, hlast⟩ := backtrack_spec fuel _ (curr :: tail) path h
          (List.isChain_cons_cons.mpr ⟨hstep, hchain⟩)
        exact ⟨hhead, hpath, hlast.trans (by simp)⟩

/-- Distances grow along a path, so a path has no repetitions. -/
theorem nodup_of_isChain {path : List CubicId} (h : List.IsChain (PathStep s distances) path) :
    path.Nodup := by
  have hlt : List.IsChain (fun x y ↦ (distances x).getD 0 < (distances y).getD 0) path :=
    h.imp fun x y hxy ↦ by have := hxy.2; omega
  have htrans : IsTrans CubicId fun x y ↦ (distances x).getD 0 < (distances y).getD 0 :=
    ⟨fun _ _ _ h h' ↦ h.trans h'⟩
  refine (List.isChain_iff_pairwise.mp hlt).imp ?_
  rintro x y hxy rfl
  exact lt_irrefl _ hxy

end Paths

/-- A path found by `findPath` runs from `source` to `target` along edges of `subsets`, without
repetition. -/
theorem findPath_spec {iter : IterationOrder} {fuel : ℕ} {source target : CubicId}
    {s : CubicSolver N I} {path : List CubicId}
    (h : findPath iter fuel source target s = some path) (hne : path ≠ []) :
    (∃ rest, path = source :: rest) ∧
      List.IsChain (fun x y ↦ x ∈ (s.nodes y).subsets) path ∧
      path.Nodup ∧ path.getLast? = some target := by
  unfold findPath at h
  simp only at h
  split at h
  · cases h
  · next distances _ =>
    split_ifs at h
    · exact absurd (Option.some.inj h).symm hne
    · obtain ⟨hhead, hchain, hlast⟩ := backtrack_spec iter s distances fuel target [] path h
        (List.IsChain.singleton target)
      exact ⟨hhead, hchain.imp fun _ _ hxy ↦ hxy.1, nodup_of_isChain s distances hchain, hlast⟩

/-- A path found by `firstPath` leads from an element of the list to `n`. -/
theorem firstPath_spec {iter : IterationOrder} {fuel : ℕ} {n : CubicId} {s : CubicSolver N I} :
    ∀ {ts path : List CubicId}, firstPath iter fuel n s ts = some path → path ≠ [] →
      ∃ t ∈ ts, findPath iter fuel t n s = some path
  | [], path, h, hne => absurd (Option.some.inj h).symm hne
  | t :: ts, path, h, hne => by
    unfold firstPath at h
    split at h
    · cases h
    · obtain ⟨t', ht', hfind⟩ := firstPath_spec h hne
      exact ⟨t', List.mem_cons_of_mem _ ht', hfind⟩
    · next hfind =>
      obtain rfl := Option.some.inj h
      exact ⟨t, List.mem_cons_self, hfind⟩

/-! ### The heap -/

section Heap

variable (name : CubicId → N)

/-- A node is live while the variable it was created for is mapped to it. -/
def Live (s : CubicSolver N I) (x : CubicId) : Prop :=
  s.dagmapping (name x) = some x

/-- What holds of the heap between two merges. The nodes of `pending` have just been merged away and
their successor on the path is still to be merged. -/
structure WellFormed (pending : CubicId → Prop) (s : CubicSolver N I) : Prop where
  total : ∀ x, x < s.created → (s.dagmapping (name x)).isSome
  lt : ∀ m x, s.dagmapping m = some x → x < s.created
  live : ∀ m x, s.dagmapping m = some x → Live name s x
  supsets : ∀ x y, Live name s x → y ∈ (s.nodes x).supsets →
    Live name s y ∧ x ∈ (s.nodes y).subsets ∧ y ≠ x
  subsets : ∀ x y, Live name s x → y ∈ (s.nodes x).subsets →
    Live name s y ∧ x ∈ (s.nodes y).supsets
  known : ∀ x y, x < s.created → y ∈ (s.nodes x).supsets → y < s.created
  stale : ∀ x, x < s.created → ¬ Live name s x → ¬ pending x →
    ∃ y ∈ (s.nodes x).supsets, s.dagmapping (name y) = s.dagmapping (name x)

/-- The function `i` is in the set of the variable `m`. -/
def BitAt (s : CubicSolver N I) (m : N) (i : I) : Prop :=
  ∃ x, s.dagmapping m = some x ∧ (s.nodes x).bitvector i = true

/-- The inclusion of one variable in another is an edge, or the two share a node. -/
def Linked (s : CubicSolver N I) (p : N × N) : Prop :=
  ∃ x y, s.dagmapping p.1 = some x ∧ s.dagmapping p.2 = some y ∧
    (x = y ∨ y ∈ (s.nodes x).supsets)

/-- The inclusion `p` waits for the function `i` at the node of `m`. -/
def Waits (s : CubicSolver N I) (m : N) (i : I) (p : N × N) : Prop :=
  ∃ x, s.dagmapping m = some x ∧ p ∈ (s.nodes x).conditionalConstraints i

/-- Nothing is left to propagate from a node. -/
def Clean (s : CubicSolver N I) (x : CubicId) : Prop :=
  (∀ i, (s.nodes x).bitvector i = true → (s.nodes x).conditionalConstraints i = []) ∧
    ∀ y ∈ (s.nodes x).supsets, ∀ i, (s.nodes x).bitvector i = true → (s.nodes y).bitvector i = true

/-- The bits of a node have reached the live node it stands for. -/
def Covered (s : CubicSolver N I) (x : CubicId) : Prop :=
  ∀ i, (s.nodes x).bitvector i = true → BitAt s (name x) i

/-- Between `s` and `s'` a node kept its bits and its waiting constraints, and its supersets at most
were replaced by the nodes they were merged into. -/
def Untouched (s s' : CubicSolver N I) (x : CubicId) : Prop :=
  (s'.nodes x).bitvector = (s.nodes x).bitvector ∧
    (s'.nodes x).conditionalConstraints = (s.nodes x).conditionalConstraints ∧
    ∀ y' ∈ (s'.nodes x).supsets, ∃ y ∈ (s.nodes x).supsets, ∃ m,
      s.dagmapping m = some y ∧ s'.dagmapping m = some y'

/-- The sets of variables grow, variables that share a node keep sharing one, and edges are kept. -/
structure Grows (s s' : CubicSolver N I) : Prop where
  created : s'.created = s.created
  factor : ∃ ρ : CubicId → CubicId, ∀ m, s'.dagmapping m = (s.dagmapping m).map ρ
  bits : ∀ x i, (s.nodes x).bitvector i = true → (s'.nodes x).bitvector i = true
  bitAt : ∀ m i, BitAt s m i → BitAt s' m i
  linked : ∀ p, Linked s p → Linked s' p

theorem Grows.refl (s : CubicSolver N I) : Grows s s :=
  ⟨rfl, ⟨id, fun m ↦ by simp⟩, fun _ _ h ↦ h, fun _ _ h ↦ h, fun _ h ↦ h⟩

theorem Grows.trans {s s' s'' : CubicSolver N I} (h : Grows s s') (h' : Grows s' s'') :
    Grows s s'' := by
  obtain ⟨ρ, hρ⟩ := h.factor
  obtain ⟨ρ', hρ'⟩ := h'.factor
  refine ⟨h'.created.trans h.created, ⟨ρ' ∘ ρ, fun m ↦ ?_⟩, fun x i hi ↦ h'.bits x i (h.bits x i hi),
    fun m i hi ↦ h'.bitAt m i (h.bitAt m i hi), fun p hp ↦ h'.linked p (h.linked p hp)⟩
  rw [hρ', hρ, Option.map_map]

/-- Variables that share a node keep sharing one. -/
theorem Grows.dagmapping_eq {s s' : CubicSolver N I} (h : Grows s s') {m m' : N}
    (heq : s.dagmapping m = s.dagmapping m') : s'.dagmapping m = s'.dagmapping m' := by
  obtain ⟨ρ, hρ⟩ := h.factor
  rw [hρ, hρ, heq]

theorem Untouched.trans {s s' s'' : CubicSolver N I} {x : CubicId} (hgrows : Grows s' s'')
    (h : Untouched s s' x) (h' : Untouched s' s'' x) : Untouched s s'' x := by
  refine ⟨h'.1.trans h.1, h'.2.1.trans h.2.1, ?_⟩
  intro y'' hy''
  obtain ⟨y', hy', m', hm', hm''⟩ := h'.2.2 y'' hy''
  obtain ⟨y, hy, m, hm, hmy'⟩ := h.2.2 y' hy'
  exact ⟨y, hy, m, hm, (hgrows.dagmapping_eq (hmy'.trans hm'.symm)).trans hm''⟩

theorem Untouched.refl {P : CubicId → Prop} {s : CubicSolver N I} (wf : WellFormed name P s)
    {x : CubicId} (hx : Live name s x) : Untouched s s x :=
  ⟨rfl, rfl, fun y hy ↦ ⟨y, hy, name y, (wf.supsets x y hx hy).1, (wf.supsets x y hx hy).1⟩⟩

/-- A clean node that is not touched stays clean. -/
theorem Clean.untouched {s s' : CubicSolver N I} {x : CubicId} (hgrows : Grows s s')
    (h : Clean s x) (h' : Untouched s s' x) : Clean s' x := by
  obtain ⟨hbits, hconds, hsup⟩ := h'
  constructor
  · rw [hbits, hconds]
    exact h.1
  · intro y' hy' i hi
    rw [hbits] at hi
    obtain ⟨y, hy, m, hm, hm'⟩ := hsup y' hy'
    obtain ⟨z, hz, hbit⟩ := hgrows.bitAt m i ⟨y, hm, h.2 y hy i hi⟩
    rw [hm'] at hz
    exact Option.some.inj hz ▸ hbit

variable {name}

theorem Covered.of_bits_eq {s s' : CubicSolver N I} {x : CubicId} (hgrows : Grows s s')
    (h : Covered name s x) (hbits : (s'.nodes x).bitvector = (s.nodes x).bitvector) :
    Covered name s' x := by
  intro i hi
  rw [hbits] at hi
  exact hgrows.bitAt _ i (h i hi)

theorem Live.covered {s : CubicSolver N I} {x : CubicId} (h : Live name s x) : Covered name s x :=
  fun _ hi ↦ ⟨x, h, hi⟩

variable (name)

/-- What a piece of the computation from `s` to `s'` guarantees. The nodes of `D` were dirty before,
the nodes of `E` may be dirty after it. -/
structure Settles (D E : CubicId → Prop) (s s' : CubicSolver N I) : Prop where
  wellFormed : WellFormed name (fun _ ↦ False) s'
  grows : Grows s s'
  live : ∀ x, Live name s' x →
    Clean s' x ∨ E x ∨ (¬ D x ∧ Live name s x ∧ Untouched s s' x)
  stale : ∀ x, x < s'.created →
    Covered name s' x ∨ E x ∨ (¬ D x ∧ (s'.nodes x).bitvector = (s.nodes x).bitvector)

variable {name}

theorem Settles.trans {D E D' E' E'' : CubicId → Prop} {s s' s'' : CubicSolver N I}
    (h : Settles name D E s s') (h' : Settles name D' E' s' s'')
    (hE : ∀ x, E x → ¬ D' x → E'' x) (hE' : ∀ x, E' x → E'' x) : Settles name D E'' s s'' := by
  refine ⟨h'.wellFormed, h.grows.trans h'.grows, fun x hx ↦ ?_, fun x hx ↦ ?_⟩
  · rcases h'.live x hx with hclean | hEx | ⟨hD', hlive, htouch⟩
    · exact Or.inl hclean
    · exact Or.inr (Or.inl (hE' x hEx))
    · rcases h.live x hlive with hclean | hEx | ⟨hD, hlive', htouch'⟩
      · exact Or.inl (hclean.untouched h'.grows htouch)
      · exact Or.inr (Or.inl (hE x hEx hD'))
      · exact Or.inr (Or.inr ⟨hD, hlive', htouch'.trans h'.grows htouch⟩)
  · rcases h'.stale x hx with hcov | hEx | ⟨hD', hbits⟩
    · exact Or.inl hcov
    · exact Or.inr (Or.inl (hE' x hEx))
    · rw [h'.grows.created] at hx
      rcases h.stale x hx with hcov | hEx | ⟨hD, hbits'⟩
      · exact Or.inl (hcov.of_bits_eq h'.grows hbits)
      · exact Or.inr (Or.inl (hE x hEx hD'))
      · exact Or.inr (Or.inr ⟨hD, hbits.trans hbits'⟩)

/-- A node that a settled piece neither cleaned nor touched keeps what was known about it. -/
theorem Settles.live_cases {s s' : CubicSolver N I} {x : CubicId}
    (h : Settles name (fun _ ↦ False) (fun _ ↦ False) s s') (hx : Live name s' x) :
    Clean s' x ∨ (Live name s x ∧ Untouched s s' x) := by
  rcases h.live x hx with hclean | hfalse | ⟨_, hlive, htouch⟩
  · exact Or.inl hclean
  · exact hfalse.elim
  · exact Or.inr ⟨hlive, htouch⟩

theorem Settles.covered {s s' : CubicSolver N I} {x : CubicId}
    (h : Settles name (fun _ ↦ False) (fun _ ↦ False) s s') (hx : x < s'.created)
    (hcov : Covered name s x) : Covered name s' x := by
  rcases h.stale x hx with hcov' | hfalse | ⟨_, hbits⟩
  · exact hcov'
  · exact hfalse.elim
  · exact hcov.of_bits_eq h.grows hbits

/-- Constraints that wait keep waiting or become edges, except for those of `pending`. -/
def Keeps (pending : List (N × N)) (s s' : CubicSolver N I) : Prop :=
  ∀ m i p, Waits s m i p → Waits s' m i p ∨ Linked s' p ∨ p ∈ pending

theorem Keeps.trans {P Q : List (N × N)} {s s' s'' : CubicSolver N I} (h : Keeps P s s')
    (h' : Keeps Q s' s'') (hgrows : Grows s' s'') : Keeps (P ++ Q) s s'' := by
  intro m i p hp
  rcases h m i p hp with hp | hp | hp
  · rcases h' m i p hp with hp | hp | hp
    · exact Or.inl hp
    · exact Or.inr (Or.inl hp)
    · exact Or.inr (Or.inr (List.mem_append_right _ hp))
  · exact Or.inr (Or.inl (hgrows.linked p hp))
  · exact Or.inr (Or.inr (List.mem_append_left _ hp))

/-- The heap lies below the solution `S`; `val x` is the set that `S` gives the variables that were
mapped to the node `x`. -/
structure Below (S : N → I → Prop) (val : CubicId → I → Prop) (s : CubicSolver N I) : Prop where
  mapped : ∀ m x, s.dagmapping m = some x → ∀ i, S m i ↔ val x i
  bits : ∀ x i, (s.nodes x).bitvector i = true → val x i
  conds : ∀ x i p, p ∈ (s.nodes x).conditionalConstraints i → val x i → ∀ j, S p.1 j → S p.2 j
  supsets : ∀ x y, y ∈ (s.nodes x).supsets → y < s.created ∧ ∀ i, val x i → val y i
  subsets : ∀ x y, y ∈ (s.nodes x).subsets → y < s.created ∧ ∀ i, val y i → val x i

/-! ### Merging -/

section Merge

variable {n1 n2 : CubicId} {s s' : CubicSolver N I} {P : CubicId → Prop}

theorem Merged.dagmapping_right (h : Merged n1 n2 s s') {m : N} (hm : s.dagmapping m = some n2) :
    s'.dagmapping m = some n1 := by
  rw [h.dagmapping, if_pos hm]

theorem Merged.dagmapping_of_ne (h : Merged n1 n2 s s') {m : N} {x : CubicId}
    (hm : s.dagmapping m = some x) (hx : x ≠ n2) : s'.dagmapping m = some x := by
  rw [h.dagmapping, hm, if_neg (by simpa using hx)]

theorem Merged.live_iff (h : Merged n1 n2 s s') (h₁ : Live name s n1) (hne : n1 ≠ n2)
    (x : CubicId) : Live name s' x ↔ Live name s x ∧ x ≠ n2 := by
  unfold Live at h₁ ⊢
  rw [h.dagmapping]
  split_ifs with hx
  · rw [hx]
    constructor
    · intro heq
      obtain rfl := Option.some.inj heq
      exact absurd (Option.some.inj (h₁.symm.trans hx)) hne
    · rintro ⟨heq, hx2⟩
      exact absurd (Option.some.inj heq).symm hx2
  · constructor
    · intro heq
      refine ⟨heq, ?_⟩
      rintro rfl
      exact hx heq
    · exact fun h ↦ h.1

theorem Merged.grows (h : Merged n1 n2 s s') (wf : WellFormed name P s) : Grows s s' := by
  have hbits : ∀ x i, (s.nodes x).bitvector i = true → (s'.nodes x).bitvector i = true := by
    intro x i hi
    by_cases hx : x = n1
    · subst hx
      rw [h.bitvector_left, hi, Bool.true_or]
    · rw [h.bitvector x hx, hi]
  refine ⟨h.created, ⟨fun x ↦ if x = n2 then n1 else x, fun m ↦ ?_⟩, hbits, ?_, ?_⟩
  · rw [h.dagmapping]
    cases s.dagmapping m with
    | none => simp
    | some x =>
      by_cases hx : x = n2 <;> simp [hx]
  · rintro m i ⟨x, hx, hi⟩
    by_cases hx2 : x = n2
    · subst hx2
      exact ⟨n1, h.dagmapping_right hx, by rw [h.bitvector_left, hi, Bool.or_true]⟩
    · exact ⟨x, h.dagmapping_of_ne hx hx2, hbits x i hi⟩
  · rintro p ⟨x, y, hx, hy, hxy⟩
    have hmap : ∀ m z, s.dagmapping m = some z →
        s'.dagmapping m = some (if z = n2 then n1 else z) := by
      intro m z hz
      rw [h.dagmapping, hz]
      by_cases hz2 : z = n2 <;> simp [hz2]
    refine ⟨_, _, hmap _ _ hx, hmap _ _ hy, ?_⟩
    rcases hxy with rfl | hxy
    · exact Or.inl rfl
    · have hlive := wf.supsets x y (wf.live _ _ hx) hxy
      by_cases hx2 : x = n2
      · subst hx2
        rw [if_pos rfl, if_neg hlive.2.2]
        by_cases hy1 : y = n1
        · exact Or.inl hy1.symm
        · exact Or.inr ((h.supsets_left y).mpr ⟨hlive.2.2, Or.inr ⟨hxy, hy1⟩⟩)
      · rw [if_neg hx2]
        by_cases hy2 : y = n2
        · subst hy2
          rw [if_pos rfl]
          by_cases hx1 : x = n1
          · exact Or.inl hx1
          · exact Or.inr ((h.supsets x n1 hx1).mpr (Or.inl ⟨hlive.2.1, Or.inl rfl⟩))
        · rw [if_neg hy2]
          refine Or.inr ?_
          by_cases hx1 : x = n1
          · subst hx1
            exact (h.supsets_left y).mpr ⟨hy2, Or.inl hxy⟩
          · by_cases hsub : x ∈ (s.nodes n2).subsets
            · exact (h.supsets x y hx1).mpr (Or.inl ⟨hsub, Or.inr ⟨hy2, hxy⟩⟩)
            · exact (h.supsets x y hx1).mpr (Or.inr ⟨hsub, hxy⟩)

/-- A merge leaves the heap well formed but for the node merged away, and gives the nodes that were
pending a superset that stands for the same live node. -/
theorem Merged.wellFormed (h : Merged n1 n2 s s') (wf : WellFormed name P s)
    (h₁ : Live name s n1) (h₂ : Live name s n2) (hne : n1 ≠ n2)
    (hP : ∀ x, P x → n2 ∈ (s.nodes x).supsets ∧ s.dagmapping (name x) = some n1) :
    WellFormed name (fun x ↦ x = n2) s' := by
  have hlive := h.live_iff h₁ hne
  have hgrows := h.grows wf
  have hsym : ∀ x, Live name s x → (x ∈ (s.nodes n2).subsets ↔ n2 ∈ (s.nodes x).supsets) :=
    fun x hx ↦ ⟨fun hmem ↦ (wf.subsets n2 x h₂ hmem).2, fun hmem ↦ (wf.supsets x n2 hx hmem).2.1⟩
  have hsym' : ∀ x, Live name s x → (x ∈ (s.nodes n2).supsets ↔ n2 ∈ (s.nodes x).subsets) :=
    fun x hx ↦ ⟨fun hmem ↦ (wf.supsets n2 x h₂ hmem).2.1, fun hmem ↦ (wf.subsets x n2 hx hmem).2⟩
  constructor
  · intro x hx
    rw [h.created] at hx
    obtain ⟨y, hy⟩ := Option.isSome_iff_exists.mp (wf.total x hx)
    rw [h.dagmapping, hy]
    split_ifs <;> rfl
  · intro m x hx
    rw [h.created]
    rw [h.dagmapping] at hx
    split_ifs at hx with hm
    · exact Option.some.inj hx ▸ wf.lt _ _ h₁
    · exact wf.lt m x hx
  · intro m x hx
    rw [hlive]
    rw [h.dagmapping] at hx
    split_ifs at hx with hm
    · obtain rfl := Option.some.inj hx
      exact ⟨h₁, hne⟩
    · refine ⟨wf.live m x hx, ?_⟩
      rintro rfl
      exact hm hx
  · intro x y hx hy
    obtain ⟨hx, hx2⟩ := (hlive x).mp hx
    rw [hlive]
    by_cases hx1 : x = n1
    · subst hx1
      obtain ⟨hy2, hy⟩ := (h.supsets_left y).mp hy
      have hyx : y ≠ x := by
        rcases hy with hy | hy
        · exact (wf.supsets x y hx hy).2.2
        · exact hy.2
      have hylive : Live name s y := by
        rcases hy with hy | hy
        · exact (wf.supsets x y hx hy).1
        · exact (wf.supsets n2 y h₂ hy.1).1
      refine ⟨⟨hylive, hy2⟩, (h.subsets y x hyx).mpr ?_, hyx⟩
      by_cases hmem : y ∈ (s.nodes n2).supsets
      · exact Or.inl ⟨hmem, Or.inl rfl⟩
      · rcases hy with hy | hy
        · exact Or.inr ⟨hmem, (wf.supsets x y hx hy).2.1⟩
        · exact absurd hy.1 hmem
    · have hcases : y = n1 ∧ x ∈ (s.nodes n2).subsets ∨ y ≠ n2 ∧ y ∈ (s.nodes x).supsets := by
        rcases (h.supsets x y hx1).mp hy with ⟨hmem, rfl | hy⟩ | ⟨hmem, hy⟩
        · exact Or.inl ⟨rfl, hmem⟩
        · exact Or.inr hy
        · refine Or.inr ⟨?_, hy⟩
          rintro rfl
          exact hmem ((hsym x hx).mpr hy)
      rcases hcases with ⟨rfl, hmem⟩ | ⟨hy2, hy⟩
      · exact ⟨⟨h₁, hne⟩, (h.subsets_left x).mpr ⟨hx2, Or.inr ⟨hmem, hx1⟩⟩, Ne.symm hx1⟩
      · obtain ⟨hylive, hsub, hyx⟩ := wf.supsets x y hx hy
        refine ⟨⟨hylive, hy2⟩, ?_, hyx⟩
        by_cases hy1 : y = n1
        · subst hy1
          exact (h.subsets_left x).mpr ⟨hx2, Or.inl hsub⟩
        · by_cases hmem : y ∈ (s.nodes n2).supsets
          · exact (h.subsets y x hy1).mpr (Or.inl ⟨hmem, Or.inr ⟨hx2, hsub⟩⟩)
          · exact (h.subsets y x hy1).mpr (Or.inr ⟨hmem, hsub⟩)
  · intro x y hx hy
    obtain ⟨hx, hx2⟩ := (hlive x).mp hx
    rw [hlive]
    by_cases hx1 : x = n1
    · subst hx1
      obtain ⟨hy2, hy⟩ := (h.subsets_left y).mp hy
      have hylive : Live name s y := by
        rcases hy with hy | hy
        · exact (wf.subsets x y hx hy).1
        · exact (wf.subsets n2 y h₂ hy.1).1
      have hyx : y ≠ x := by
        rcases hy with hy | hy
        · exact fun heq ↦ (wf.supsets y x hylive (wf.subsets x y hx hy).2).2.2 heq.symm
        · exact hy.2
      refine ⟨⟨hylive, hy2⟩, (h.supsets y x hyx).mpr ?_⟩
      by_cases hmem : y ∈ (s.nodes n2).subsets
      · exact Or.inl ⟨hmem, Or.inl rfl⟩
      · rcases hy with hy | hy
        · exact Or.inr ⟨hmem, (wf.subsets x y hx hy).2⟩
        · exact absurd hy.1 hmem
    · have hcases : y = n1 ∧ x ∈ (s.nodes n2).supsets ∨ y ≠ n2 ∧ y ∈ (s.nodes x).subsets := by
        rcases (h.subsets x y hx1).mp hy with ⟨hmem, rfl | hy⟩ | ⟨hmem, hy⟩
        · exact Or.inl ⟨rfl, hmem⟩
        · exact Or.inr hy
        · refine Or.inr ⟨?_, hy⟩
          rintro rfl
          exact hmem ((hsym' x hx).mpr hy)
      rcases hcases with ⟨rfl, hmem⟩ | ⟨hy2, hy⟩
      · exact ⟨⟨h₁, hne⟩, (h.supsets_left x).mpr ⟨hx2, Or.inr ⟨hmem, hx1⟩⟩⟩
      · obtain ⟨hylive, hsup⟩ := wf.subsets x y hx hy
        refine ⟨⟨hylive, hy2⟩, ?_⟩
        by_cases hy1 : y = n1
        · subst hy1
          exact (h.supsets_left x).mpr ⟨hx2, Or.inl hsup⟩
        · by_cases hmem : y ∈ (s.nodes n2).subsets
          · exact (h.supsets y x hy1).mpr (Or.inl ⟨hmem, Or.inr ⟨hx2, hsup⟩⟩)
          · exact (h.supsets y x hy1).mpr (Or.inr ⟨hmem, hsup⟩)
  · intro x y hx hy
    rw [h.created] at hx ⊢
    by_cases hx1 : x = n1
    · subst hx1
      rcases ((h.supsets_left y).mp hy).2 with hy | hy
      · exact wf.known x y hx hy
      · exact wf.known n2 y (wf.lt _ _ h₂) hy.1
    · rcases (h.supsets x y hx1).mp hy with ⟨_, rfl | hy⟩ | ⟨_, hy⟩
      · exact wf.lt _ _ h₁
      · exact wf.known x y hx hy.2
      · exact wf.known x y hx hy
  · intro x hx hstale hx2
    rw [h.created] at hx
    have hstale' : ¬ Live name s x := fun hl ↦ hstale ((hlive x).mpr ⟨hl, hx2⟩)
    have hx1 : x ≠ n1 := by
      rintro rfl
      exact hstale' h₁
    -- only live nodes are subsets of `n2`, so the edges of `x` have not changed
    have hsup : ∀ y, y ∈ (s'.nodes x).supsets ↔ y ∈ (s.nodes x).supsets := by
      intro y
      have hmem : x ∉ (s.nodes n2).subsets := fun hmem ↦ hstale' (wf.subsets n2 x h₂ hmem).1
      rw [h.supsets x y hx1]
      grind
    by_cases hPx : P x
    · obtain ⟨hmem, hdag⟩ := hP x hPx
      refine ⟨n2, (hsup n2).mpr hmem, ?_⟩
      rw [h.dagmapping_right h₂, h.dagmapping_of_ne hdag hne]
    · obtain ⟨y, hy, heq⟩ := wf.stale x hx hstale' hPx
      exact ⟨y, (hsup y).mpr hy, hgrows.dagmapping_eq heq⟩

theorem Merged.untouched (h : Merged n1 n2 s s') (wf : WellFormed name P s)
    (h₂ : Live name s n2) {x : CubicId} (hx : Live name s x) (hx1 : x ≠ n1) :
    Untouched s s' x := by
  refine ⟨h.bitvector x hx1, h.conditional x hx1, ?_⟩
  intro y' hy'
  have hsame : ∀ y, y ∈ (s.nodes x).supsets → y ≠ n2 →
      ∃ z ∈ (s.nodes x).supsets, ∃ m, s.dagmapping m = some z ∧ s'.dagmapping m = some y := by
    intro y hy hy2
    have hlive := (wf.supsets x y hx hy).1
    exact ⟨y, hy, name y, hlive, h.dagmapping_of_ne hlive hy2⟩
  rcases (h.supsets x y' hx1).mp hy' with ⟨hmem, rfl | ⟨hy2, hy⟩⟩ | ⟨hmem, hy⟩
  · exact ⟨n2, (wf.subsets n2 x h₂ hmem).2, name n2, h₂, h.dagmapping_right h₂⟩
  · exact hsame y' hy hy2
  · refine hsame y' hy ?_
    rintro rfl
    exact hmem (wf.supsets x y' hx hy).2.1

theorem Merged.keeps (h : Merged n1 n2 s s') : Keeps [] s s' := by
  rintro m i p ⟨x, hx, hp⟩
  refine Or.inl ?_
  by_cases hx2 : x = n2
  · subst hx2
    exact ⟨n1, h.dagmapping_right hx,
      by rw [h.conditional_left]; exact List.mem_append_right _ hp⟩
  · refine ⟨x, h.dagmapping_of_ne hx hx2, ?_⟩
    by_cases hx1 : x = n1
    · subst hx1
      rw [h.conditional_left]
      exact List.mem_append_left _ hp
    · rw [h.conditional x hx1]
      exact hp

/-- Merging two nodes with the same set stays below a solution. -/
theorem Merged.below (h : Merged n1 n2 s s') {S : N → I → Prop} {val : CubicId → I → Prop}
    (hs : Below S val s) (h₁ : n1 < s.created) (hval : ∀ i, val n1 i ↔ val n2 i) :
    Below S val s' := by
  constructor
  · intro m x hx i
    rw [h.dagmapping] at hx
    split_ifs at hx with hm
    · obtain rfl := Option.some.inj hx
      exact (hs.mapped m n2 hm i).trans (hval i).symm
    · exact hs.mapped m x hx i
  · intro x i hi
    by_cases hx1 : x = n1
    · subst hx1
      rw [h.bitvector_left, Bool.or_eq_true] at hi
      rcases hi with hi | hi
      · exact hs.bits x i hi
      · exact (hval i).mpr (hs.bits n2 i hi)
    · rw [h.bitvector x hx1] at hi
      exact hs.bits x i hi
  · intro x i p hp hx
    by_cases hx1 : x = n1
    · subst hx1
      rw [h.conditional_left, List.mem_append] at hp
      rcases hp with hp | hp
      · exact hs.conds x i p hp hx
      · exact hs.conds n2 i p hp ((hval i).mp hx)
    · rw [h.conditional x hx1] at hp
      exact hs.conds x i p hp hx
  · intro x y hy
    rw [h.created]
    by_cases hx1 : x = n1
    · subst hx1
      rcases ((h.supsets_left y).mp hy).2 with hy | hy
      · exact hs.supsets x y hy
      · obtain ⟨hlt, hle⟩ := hs.supsets n2 y hy.1
        exact ⟨hlt, fun i hi ↦ hle i ((hval i).mp hi)⟩
    · rcases (h.supsets x y hx1).mp hy with ⟨hmem, rfl | hy⟩ | ⟨_, hy⟩
      · exact ⟨h₁, fun i hi ↦ (hval i).mpr ((hs.subsets n2 x hmem).2 i hi)⟩
      · exact hs.supsets x y hy.2
      · exact hs.supsets x y hy
  · intro x y hy
    rw [h.created]
    by_cases hx1 : x = n1
    · subst hx1
      rcases ((h.subsets_left y).mp hy).2 with hy | hy
      · exact hs.subsets x y hy
      · obtain ⟨hlt, hle⟩ := hs.subsets n2 y hy.1
        exact ⟨hlt, fun i hi ↦ (hval i).mpr (hle i hi)⟩
    · rcases (h.subsets x y hx1).mp hy with ⟨hmem, rfl | hy⟩ | ⟨_, hy⟩
      · exact ⟨h₁, fun i hi ↦ (hs.supsets n2 x hmem).2 i ((hval i).mp hi)⟩
      · exact hs.subsets x y hy.2
      · exact hs.subsets x y hy

end Merge

variable (name)

/-- What merging the nodes of `rest` into `a` guarantees. -/
structure MergedPath (a : CubicId) (rest : List CubicId) (s s' : CubicSolver N I) : Prop where
  wellFormed : WellFormed name (fun _ ↦ False) s'
  grows : Grows s s'
  keeps : Keeps [] s s'
  survivor : Live name s' a
  merged : ∀ b ∈ rest, s'.dagmapping (name b) = some a
  live : ∀ x, Live name s' x → x = a ∨ (x ∉ rest ∧ Live name s x ∧ Untouched s s' x)
  bits : ∀ x, x ≠ a → (s'.nodes x).bitvector = (s.nodes x).bitvector
  below : ∀ (S : N → I → Prop) val, Below S val s → (∀ b ∈ rest, ∀ i, val a i ↔ val b i) →
    Below S val s'

variable {name}

/-- The state of the loop of `mergePath` while the nodes of `rest` are still to be merged into `a`. The
last of them has an edge to `a`. A node merged away has an edge to the next node of the path; the
nodes of `P` are those still waiting for it. -/
structure Mergeable (name : CubicId → N) (a : CubicId) (rest : List CubicId) (P : CubicId → Prop)
    (s : CubicSolver N I) : Prop where
  wellFormed : WellFormed name P s
  survivor : Live name s a
  live : ∀ b ∈ rest, Live name s b
  nodup : (a :: rest).Nodup
  chain : List.IsChain (fun x y ↦ x ∈ (s.nodes y).subsets) rest
  last : ∀ b ∈ rest.getLast?, a ∈ (s.nodes b).supsets
  pending : ∀ x, P x → rest.head?.getD a ∈ (s.nodes x).supsets ∧ s.dagmapping (name x) = some a

/-- The body of the loop of `mergePath`. -/
theorem Mergeable.step (iter : IterationOrder) {a b : CubicId} {rest : List CubicId}
    {P : CubicId → Prop} {s : CubicSolver N I} (h : Mergeable name a (b :: rest) P s) :
    a ≠ b ∧ Live name s b ∧ Merged a b s (mergeNodes iter a b s) ∧
      Mergeable name a rest (fun x ↦ x = b) (mergeNodes iter a b s) := by
  obtain ⟨wf, ha, hlive, hnodup, hchain, hlast, hP⟩ := h
  have hb : Live name s b := hlive b List.mem_cons_self
  have hab : a ≠ b := by
    rintro rfl
    exact (List.nodup_cons.mp hnodup).1 List.mem_cons_self
  obtain ⟨hamem, hnodup'⟩ := List.nodup_cons.mp hnodup
  obtain ⟨hbmem, hnodup''⟩ := List.nodup_cons.mp hnodup'
  have hselfsup : b ∉ (s.nodes b).supsets := fun hmem ↦ (wf.supsets b b hb hmem).2.2 rfl
  have hselfsub : b ∉ (s.nodes b).subsets := fun hmem ↦ hselfsup (wf.subsets b b hb hmem).2
  have hm := merged_mergeNodes iter hab hselfsup
  have hlive₁ := hm.live_iff ha hab
  refine ⟨hab, hb, hm, hm.wellFormed wf ha hb hab hP, (hlive₁ a).mpr ⟨ha, hab⟩, fun c hc ↦ ?_, ?_,
    ?_, fun c hc ↦ ?_, ?_⟩
  · refine (hlive₁ c).mpr ⟨hlive c (List.mem_cons_of_mem _ hc), ?_⟩
    rintro rfl
    exact hbmem hc
  · exact List.nodup_cons.mpr ⟨fun h ↦ hamem (List.mem_cons_of_mem _ h), hnodup''⟩
  · -- the edges between the nodes that are still to be merged have not changed
    refine List.IsChain.imp_of_mem_imp ?_ hchain.tail
    intro x y hx hy hxy
    have hya : y ≠ a := by
      rintro rfl
      exact hamem (List.mem_cons_of_mem _ hy)
    have hxb : x ≠ b := by
      rintro rfl
      exact hbmem hx
    by_cases hmem : y ∈ (s.nodes b).supsets
    · exact (hm.subsets y x hya).mpr (Or.inl ⟨hmem, Or.inr ⟨hxb, hxy⟩⟩)
    · exact (hm.subsets y x hya).mpr (Or.inr ⟨hmem, hxy⟩)
  · have hcrest : c ∈ rest := List.mem_of_getLast? hc
    have hac : a ∈ (s.nodes c).supsets := by
      refine hlast c ?_
      cases rest with
      | nil => cases hcrest
      | cons d rest => simpa using hc
    have hca : c ≠ a := by
      rintro rfl
      exact hamem (List.mem_cons_of_mem _ hcrest)
    by_cases hmem : c ∈ (s.nodes b).subsets
    · exact (hm.supsets c a hca).mpr (Or.inl ⟨hmem, Or.inl rfl⟩)
    · exact (hm.supsets c a hca).mpr (Or.inr ⟨hmem, hac⟩)
  · rintro x rfl
    refine ⟨(hm.supsets x _ (Ne.symm hab)).mpr (Or.inr ⟨hselfsub, ?_⟩), hm.dagmapping_right hb⟩
    cases rest with
    | nil => exact hlast x (by simp)
    | cons c rest =>
      have hxc : x ∈ (s.nodes c).subsets := (List.isChain_cons_cons.mp hchain).1
      exact (wf.subsets c x (hlive c (by simp)) hxc).2

/-- The loop of `mergePath`. -/
theorem mergedPath (iter : IterationOrder) {a : CubicId} :
    ∀ (rest : List CubicId) (s : CubicSolver N I) (P : CubicId → Prop),
      Mergeable name a rest P s →
      MergedPath name a rest s (rest.foldl (fun s b ↦ mergeNodes iter a b s) s)
  | [], s, P, h => by
    obtain ⟨wf, ha, -, -, -, -, hP⟩ := h
    refine ⟨⟨wf.total, wf.lt, wf.live, wf.supsets, wf.subsets, wf.known, ?_⟩, Grows.refl s,
      fun m i p hp ↦ Or.inl hp, ha, by simp, ?_, fun _ _ ↦ rfl, fun S val hs _ ↦ hs⟩
    · intro x hx hstale _
      by_cases hPx : P x
      · obtain ⟨hmem, hdag⟩ := hP x hPx
        exact ⟨a, hmem, ha.trans hdag.symm⟩
      · exact wf.stale x hx hstale hPx
    · intro x hx
      exact Or.inr ⟨List.not_mem_nil, hx, Untouched.refl name wf hx⟩
  | b :: rest, s, P, h => by
    have wf := h.wellFormed
    have ha := h.survivor
    obtain ⟨hab, hb, hm, hnext⟩ := h.step iter
    have hstep := mergedPath iter rest _ _ hnext
    have ha₁ := hnext.survivor
    have hlive₁ := hm.live_iff ha hab
    set s₁ := mergeNodes iter a b s with hs₁
    refine ⟨hstep.wellFormed, (hm.grows wf).trans hstep.grows, ?_, hstep.survivor, ?_, ?_, ?_, ?_⟩
    · exact hm.keeps.trans hstep.keeps hstep.grows
    · intro c hc
      rcases List.mem_cons.mp hc with rfl | hc
      · have hsame : s₁.dagmapping (name c) = s₁.dagmapping (name a) :=
          (hm.dagmapping_right hb).trans ha₁.symm
        exact (hstep.grows.dagmapping_eq hsame).trans hstep.survivor
      · exact hstep.merged c hc
    · intro x hx
      by_cases hxa : x = a
      · exact Or.inl hxa
      rcases hstep.live x hx with rfl | ⟨hrest, hx₁, htouch⟩
      · exact absurd rfl hxa
      · obtain ⟨hx₀, hxb⟩ := (hlive₁ x).mp hx₁
        refine Or.inr ⟨?_, hx₀, (hm.untouched wf hb hx₀ hxa).trans hstep.grows htouch⟩
        rw [List.mem_cons]
        rintro (h | h)
        · exact hxb h
        · exact hrest h
    · exact fun x hx ↦ (hstep.bits x hx).trans (hm.bitvector x hx)
    · intro S val hs hval
      refine hstep.below S val (hm.below hs (wf.lt _ _ ha) (hval b List.mem_cons_self)) ?_
      exact fun c hc ↦ hval c (List.mem_cons_of_mem _ hc)

/-- What every merge of two live nodes keeps, the loop of `mergePath` keeps. -/
theorem Mergeable.keeps (iter : IterationOrder) {a : CubicId} {Q : CubicSolver N I → Prop}
    (hQ : ∀ P b s s', WellFormed name P s → Live name s a → Live name s b → a ≠ b →
      Merged a b s s' → Q s → Q s') :
    ∀ (rest : List CubicId) (s : CubicSolver N I) (P : CubicId → Prop),
      Mergeable name a rest P s → Q s → Q (rest.foldl (fun s b ↦ mergeNodes iter a b s) s)
  | [], _, _, _, hs => hs
  | b :: rest, s, P, h, hs => by
    obtain ⟨hab, hb, hm, hnext⟩ := h.step iter
    exact Mergeable.keeps iter hQ rest _ _ hnext
      (hQ P b s _ h.wellFormed h.survivor hb hab hm hs)

/-- The nodes of a path that ends in a live node are live. -/
theorem live_of_isChain {P : CubicId → Prop} {s : CubicSolver N I} (wf : WellFormed name P s)
    {n : CubicId} (hn : Live name s n) :
    ∀ {path : List CubicId}, List.IsChain (fun x y ↦ x ∈ (s.nodes y).subsets) path →
      path.getLast? = some n → ∀ b ∈ path, Live name s b
  | [x], _, hlast, b, hb => by
    obtain rfl := List.mem_singleton.mp hb
    obtain rfl : b = n := by simpa using hlast
    exact hn
  | x :: y :: path, hchain, hlast, b, hb => by
    obtain ⟨hxy, hchain⟩ := List.isChain_cons_cons.mp hchain
    have hrest := live_of_isChain wf hn hchain (by simpa using hlast)
    rcases List.mem_cons.mp hb with rfl | hb
    · exact (wf.subsets y b (hrest y List.mem_cons_self) hxy).1
    · exact hrest b hb

/-- Along a path the sets of a solution grow. -/
theorem Below.le_of_isChain {S : N → I → Prop} {val : CubicId → I → Prop} {s : CubicSolver N I}
    (hs : Below S val s) {n : CubicId} :
    ∀ {path : List CubicId}, List.IsChain (fun x y ↦ x ∈ (s.nodes y).subsets) path →
      path.getLast? = some n → ∀ b ∈ path, ∀ i, val b i → val n i
  | [x], _, hlast, b, hb, i, hi => by
    obtain rfl := List.mem_singleton.mp hb
    obtain rfl : b = n := by simpa using hlast
    exact hi
  | x :: y :: path, hchain, hlast, b, hb, i, hi => by
    obtain ⟨hxy, hchain⟩ := List.isChain_cons_cons.mp hchain
    have hrest := Below.le_of_isChain hs hchain (by simpa using hlast)
    rcases List.mem_cons.mp hb with rfl | hb
    · exact hrest y List.mem_cons_self i ((hs.subsets y b hxy).2 i hi)
    · exact hrest b hb i hi

theorem Below.le_of_isChain_head {S : N → I → Prop} {val : CubicId → I → Prop}
    {s : CubicSolver N I} (hs : Below S val s) :
    ∀ {t : CubicId} {rest : List CubicId},
      List.IsChain (fun x y ↦ x ∈ (s.nodes y).subsets) (t :: rest) →
      ∀ b ∈ rest, ∀ i, val t i → val b i
  | t, y :: rest, hchain, b, hb, i, hi => by
    obtain ⟨hty, hchain⟩ := List.isChain_cons_cons.mp hchain
    have hy : val y i := (hs.subsets y t hty).2 i hi
    rcases List.mem_cons.mp hb with rfl | hb
    · exact hy
    · exact Below.le_of_isChain_head hs hchain b hb i hy

/-- A path that `killCyclesAt` finds can be merged into its first node, a superset of `n`. -/
theorem mergeable_of_firstPath (iter : IterationOrder) {fuel : ℕ} {n : CubicId}
    {s : CubicSolver N I} (wf : WellFormed name (fun _ ↦ False) s) (hn : Live name s n)
    {path : List CubicId} (hne : path ≠ [])
    (hpath : firstPath iter fuel n s (iter.list (s.nodes n).supsets) = some path) :
    ∃ t rest, path = t :: rest ∧ t ∈ (s.nodes n).supsets ∧ n ∈ rest ∧ path.Nodup ∧
      (∀ b ∈ path, Live name s b) ∧
      List.IsChain (fun x y ↦ x ∈ (s.nodes y).subsets) path ∧ path.getLast? = some n ∧
      Mergeable name t rest (fun _ ↦ False) s := by
  obtain ⟨t, ht, hfind⟩ := firstPath_spec hpath hne
  have htn : t ∈ (s.nodes n).supsets := (iter.mem_list _ _).mp ht
  obtain ⟨⟨rest, rfl⟩, hchain, hnodup, hlast⟩ := findPath_spec hfind hne
  have hlive := live_of_isChain wf hn hchain hlast
  obtain ⟨htlive, _, htne⟩ := wf.supsets n t hn htn
  have hnrest : n ∈ rest := by
    have hmem := List.mem_of_getLast? hlast
    rcases List.mem_cons.mp hmem with rfl | hmem
    · exact absurd rfl htne
    · exact hmem
  refine ⟨t, rest, rfl, htn, hnrest, hnodup, hlive, hchain, hlast, wf, htlive,
    fun b hb ↦ hlive b (List.mem_cons_of_mem _ hb), hnodup, hchain.tail, ?_,
    fun _ hfalse ↦ hfalse.elim⟩
  intro b hb
  have hbn : b = n := by
    cases rest with
    | nil => cases hnrest
    | cons c rest =>
      have hlast' : (c :: rest).getLast? = some n := by simpa using hlast
      rw [hlast'] at hb
      exact (Option.some.inj hb).symm
  exact hbn ▸ htn

/-- A path that `killCyclesAt` finds is merged into its first node, a superset of `n`. -/
theorem mergedPath_of_firstPath (iter : IterationOrder) {fuel : ℕ} {n : CubicId}
    {s : CubicSolver N I} (wf : WellFormed name (fun _ ↦ False) s) (hn : Live name s n)
    {path : List CubicId} (hne : path ≠ [])
    (hpath : firstPath iter fuel n s (iter.list (s.nodes n).supsets) = some path) :
    ∃ t rest, path = t :: rest ∧ t ∈ (s.nodes n).supsets ∧ n ∈ rest ∧ path.Nodup ∧
      (∀ b ∈ path, Live name s b) ∧
      List.IsChain (fun x y ↦ x ∈ (s.nodes y).subsets) path ∧ path.getLast? = some n ∧
      MergedPath name t rest s (rest.foldl (fun s b ↦ mergeNodes iter t b s) s) := by
  obtain ⟨t, rest, hpath, htn, hnrest, hnodup, hlive, hchain, hlast, hmergeable⟩ :=
    mergeable_of_firstPath iter wf hn hne hpath
  exact ⟨t, rest, hpath, htn, hnrest, hnodup, hlive, hchain, hlast,
    mergedPath iter rest s _ hmergeable⟩

/-- `killCyclesAt` merges the cycles through a live node and leaves only the merged node to be
processed. -/
theorem killCyclesAt_spec (iter : IterationOrder) :
    ∀ (fuel : ℕ) (n : CubicId) (s : CubicSolver N I) (n' : CubicId) (s' : CubicSolver N I),
      WellFormed name (fun _ ↦ False) s → Live name s n →
      killCyclesAt iter fuel n s = some (n', s') →
      Settles name (fun x ↦ x = n) (fun x ↦ x = n') s s' ∧ Keeps [] s s' ∧
        s'.dagmapping (name n) = some n' ∧
        ∀ (S : N → I → Prop) val, Below S val s → Below S val s'
  | 0, _, _, _, _, _, _, h => by cases h
  | fuel + 1, n, s, n', s', wf, hn, h => by
    unfold killCyclesAt at h
    split at h
    · cases h
    · obtain ⟨rfl, rfl⟩ := Prod.mk.inj (Option.some.inj h)
      refine ⟨⟨wf, Grows.refl s, fun x hx ↦ ?_, fun x hx ↦ ?_⟩, fun m i p hp ↦ Or.inl hp, hn,
        fun S val hs ↦ hs⟩
      · by_cases hxn : x = n
        · exact Or.inr (Or.inl hxn)
        · exact Or.inr (Or.inr ⟨hxn, hx, Untouched.refl name wf hx⟩)
      · by_cases hxn : x = n
        · exact Or.inr (Or.inl hxn)
        · exact Or.inr (Or.inr ⟨hxn, rfl⟩)
    · next path hne hpath =>
      obtain ⟨t, rest, rfl, htn, hnrest, -, -, hchain, hlast, hm⟩ :=
        mergedPath_of_firstPath iter wf hn hne hpath
      have htne := (wf.supsets n t hn htn).2.2
      unfold mergePath at h
      simp only at h
      set s₁ := rest.foldl (fun s b ↦ mergeNodes iter t b s) s
      have hnt : n ≠ t := fun heq ↦ htne heq.symm
      have hsettles : Settles name (fun x ↦ x = n) (fun x ↦ x = t) s s₁ := by
        refine ⟨hm.wellFormed, hm.grows, fun x hx ↦ ?_, fun x hx ↦ ?_⟩
        · rcases hm.live x hx with hxt | ⟨hrest, hx₀, htouch⟩
          · exact Or.inr (Or.inl hxt)
          · refine Or.inr (Or.inr ⟨?_, hx₀, htouch⟩)
            rintro rfl
            exact hrest hnrest
        · by_cases hxt : x = t
          · exact Or.inr (Or.inl hxt)
          · by_cases hxn : x = n
            · subst hxn
              exact Or.inl (hn.covered.of_bits_eq hm.grows (hm.bits x hxt))
            · exact Or.inr (Or.inr ⟨hxn, hm.bits x hxt⟩)
      obtain ⟨hsettles', hkeeps', hdag', hbelow'⟩ :=
        killCyclesAt_spec iter fuel t s₁ n' s' hm.wellFormed hm.survivor h
      refine ⟨hsettles.trans hsettles' (fun x hx hx' ↦ absurd hx hx') (fun x hx ↦ hx),
        hm.keeps.trans hkeeps' hsettles'.grows, ?_, fun S val hs ↦ hbelow' S val ?_⟩
      · have hsame : s₁.dagmapping (name n) = s₁.dagmapping (name t) :=
          (hm.merged n hnrest).trans hm.survivor.symm
        exact (hsettles'.grows.dagmapping_eq hsame).trans hdag'
      · refine hm.below S val hs fun b hb i ↦ ⟨hs.le_of_isChain_head hchain b hb i, fun hi ↦ ?_⟩
        exact (hs.supsets n t htn).2 i
          (hs.le_of_isChain hchain hlast b (List.mem_cons_of_mem _ hb) i hi)

/-! ### Steps that merge nothing -/

/-- The heaps differ at most in the bits and the waiting constraints of `x`, and its bits grow. -/
structure ChangedAt (x : CubicId) (s s' : CubicSolver N I) : Prop where
  created : s'.created = s.created
  dagmapping : s'.dagmapping = s.dagmapping
  supsets : ∀ y, (s'.nodes y).supsets = (s.nodes y).supsets
  subsets : ∀ y, (s'.nodes y).subsets = (s.nodes y).subsets
  bits : ∀ i, (s.nodes x).bitvector i = true → (s'.nodes x).bitvector i = true
  other : ∀ y, y ≠ x → s'.nodes y = s.nodes y

theorem changedAt_modify {s : CubicSolver N I} {x : CubicId}
    {change : CubicSolverNode N I → CubicSolverNode N I}
    (hsup : ∀ n, (change n).supsets = n.supsets) (hsub : ∀ n, (change n).subsets = n.subsets)
    (hbits : ∀ n i, n.bitvector i = true → (change n).bitvector i = true) :
    ChangedAt x s (s.modify x change) := by
  refine ⟨rfl, rfl, fun y ↦ ?_, fun y ↦ ?_, fun i hi ↦ ?_, fun y hy ↦ ?_⟩
  · rw [modify_nodes]
    split_ifs with h
    · rw [hsup, h]
    · rfl
  · rw [modify_nodes]
    split_ifs with h
    · rw [hsub, h]
    · rfl
  · rw [modify_nodes, if_pos rfl]
    exact hbits _ i hi
  · rw [modify_nodes, if_neg hy]

section Changed

variable {x : CubicId} {s s' : CubicSolver N I}

theorem ChangedAt.bits_mono (h : ChangedAt x s s') (y : CubicId) (i : I)
    (hi : (s.nodes y).bitvector i = true) : (s'.nodes y).bitvector i = true := by
  by_cases hy : y = x
  · subst hy
    exact h.bits i hi
  · rw [h.other y hy]
    exact hi

theorem ChangedAt.grows (h : ChangedAt x s s') : Grows s s' := by
  refine ⟨h.created, ⟨id, fun m ↦ ?_⟩, h.bits_mono, ?_, ?_⟩
  · rw [h.dagmapping, Option.map_id_fun, id]
  · rintro m i ⟨y, hy, hi⟩
    exact ⟨y, by rw [h.dagmapping, hy], h.bits_mono y i hi⟩
  · rintro p ⟨y, z, hy, hz, hyz⟩
    refine ⟨y, z, by rw [h.dagmapping, hy], by rw [h.dagmapping, hz], ?_⟩
    rw [h.supsets]
    exact hyz

theorem ChangedAt.live_iff (h : ChangedAt x s s') (y : CubicId) :
    Live name s' y ↔ Live name s y := by
  unfold Live
  rw [h.dagmapping]

theorem ChangedAt.wellFormed {P : CubicId → Prop} (h : ChangedAt x s s')
    (wf : WellFormed name P s) : WellFormed name P s' := by
  constructor
  · rw [h.created, h.dagmapping]
    exact wf.total
  · rw [h.created, h.dagmapping]
    exact wf.lt
  · intro m y hy
    rw [h.live_iff]
    rw [h.dagmapping] at hy
    exact wf.live m y hy
  · intro y z hy hz
    rw [h.live_iff] at hy ⊢
    rw [h.supsets] at hz
    rw [h.subsets]
    exact wf.supsets y z hy hz
  · intro y z hy hz
    rw [h.live_iff] at hy ⊢
    rw [h.subsets] at hz
    rw [h.supsets]
    exact wf.subsets y z hy hz
  · intro y z hy hz
    rw [h.created] at hy ⊢
    rw [h.supsets] at hz
    exact wf.known y z hy hz
  · intro y hy hstale hP
    rw [h.created] at hy
    rw [h.live_iff] at hstale
    rw [h.supsets, h.dagmapping]
    exact wf.stale y hy hstale hP

/-- A change at one node leaves only this node to be processed. -/
theorem ChangedAt.settles (h : ChangedAt x s s') (wf : WellFormed name (fun _ ↦ False) s) :
    Settles name (fun _ ↦ False) (fun y ↦ y = x) s s' := by
  refine ⟨h.wellFormed wf, h.grows, fun y hy ↦ ?_, fun y _ ↦ ?_⟩
  · by_cases hyx : y = x
    · exact Or.inr (Or.inl hyx)
    · have hy' := (h.live_iff y).mp hy
      refine Or.inr (Or.inr ⟨not_false, hy', ?_⟩)
      obtain ⟨_, _, hsup⟩ := Untouched.refl name wf hy'
      refine ⟨by rw [h.other y hyx], by rw [h.other y hyx], ?_⟩
      rw [h.supsets, h.dagmapping]
      exact hsup
  · by_cases hyx : y = x
    · exact Or.inr (Or.inl hyx)
    · exact Or.inr (Or.inr ⟨not_false, by rw [h.other y hyx]⟩)

end Changed

theorem Settles.refl {D : CubicId → Prop} {s : CubicSolver N I}
    (wf : WellFormed name (fun _ ↦ False) s) (hD : ∀ x, ¬ D x) :
    Settles name D (fun _ ↦ False) s s :=
  ⟨wf, Grows.refl s, fun x hx ↦ Or.inr (Or.inr ⟨hD x, hx, Untouched.refl name wf hx⟩),
    fun x _ ↦ Or.inr (Or.inr ⟨hD x, rfl⟩)⟩

theorem Keeps.refl (s : CubicSolver N I) : Keeps [] s s :=
  fun _ _ _ hp ↦ Or.inl hp

/-- A new edge between two live nodes. -/
structure NewEdge (a b : CubicId) (s s' : CubicSolver N I) : Prop where
  created : s'.created = s.created
  dagmapping : s'.dagmapping = s.dagmapping
  bitvector : ∀ x, (s'.nodes x).bitvector = (s.nodes x).bitvector
  conditional : ∀ x, (s'.nodes x).conditionalConstraints = (s.nodes x).conditionalConstraints
  supsets : ∀ x y, y ∈ (s'.nodes x).supsets ↔ y ∈ (s.nodes x).supsets ∨ (x = a ∧ y = b)
  subsets : ∀ x y, y ∈ (s'.nodes x).subsets ↔ y ∈ (s.nodes x).subsets ∨ (x = b ∧ y = a)

theorem newEdge_modify (s : CubicSolver N I) (a b : CubicId) :
    NewEdge a b s ((s.modify a fun x ↦ { x with supsets := insert b x.supsets }).modify b
      fun x ↦ { x with subsets := insert a x.subsets }) := by
  refine ⟨rfl, rfl, fun x ↦ ?_, fun x ↦ ?_, fun x y ↦ ?_, fun x y ↦ ?_⟩ <;>
    simp only [modify_nodes] <;> split_ifs <;> grind

section Edge

variable {a b : CubicId} {s s' : CubicSolver N I}

theorem NewEdge.live_iff (h : NewEdge a b s s') (y : CubicId) :
    Live name s' y ↔ Live name s y := by
  unfold Live
  rw [h.dagmapping]

theorem NewEdge.wellFormed (h : NewEdge a b s s') (wf : WellFormed name (fun _ ↦ False) s)
    (ha : Live name s a) (hb : Live name s b) (hab : a ≠ b) :
    WellFormed name (fun _ ↦ False) s' := by
  constructor
  · rw [h.created, h.dagmapping]
    exact wf.total
  · rw [h.created, h.dagmapping]
    exact wf.lt
  · intro m y hy
    rw [h.live_iff]
    rw [h.dagmapping] at hy
    exact wf.live m y hy
  · intro x y hx hy
    rw [h.live_iff] at hx ⊢
    rw [h.subsets]
    rcases (h.supsets x y).mp hy with hy | ⟨rfl, rfl⟩
    · obtain ⟨hlive, hsub, hne⟩ := wf.supsets x y hx hy
      exact ⟨hlive, Or.inl hsub, hne⟩
    · exact ⟨hb, Or.inr ⟨rfl, rfl⟩, Ne.symm hab⟩
  · intro x y hx hy
    rw [h.live_iff] at hx ⊢
    rw [h.supsets]
    rcases (h.subsets x y).mp hy with hy | ⟨rfl, rfl⟩
    · obtain ⟨hlive, hsup⟩ := wf.subsets x y hx hy
      exact ⟨hlive, Or.inl hsup⟩
    · exact ⟨ha, Or.inr ⟨rfl, rfl⟩⟩
  · intro x y hx hy
    rw [h.created] at hx ⊢
    rcases (h.supsets x y).mp hy with hy | ⟨_, rfl⟩
    · exact wf.known x y hx hy
    · exact wf.lt _ _ hb
  · intro x hx hstale hP
    rw [h.created] at hx
    rw [h.live_iff] at hstale
    obtain ⟨y, hy, heq⟩ := wf.stale x hx hstale hP
    exact ⟨y, (h.supsets x y).mpr (Or.inl hy), by rw [h.dagmapping, heq]⟩

theorem NewEdge.settles (h : NewEdge a b s s') (wf : WellFormed name (fun _ ↦ False) s)
    (ha : Live name s a) (hb : Live name s b) (hab : a ≠ b) :
    Settles name (fun _ ↦ False) (fun x ↦ x = a) s s' := by
  refine ⟨h.wellFormed wf ha hb hab, ⟨h.created, ⟨id, fun m ↦ ?_⟩, ?_, ?_, ?_⟩, fun x hx ↦ ?_,
    fun x _ ↦ Or.inr (Or.inr ⟨not_false, h.bitvector x⟩)⟩
  · rw [h.dagmapping, Option.map_id_fun, id]
  · intro x i hi
    rw [h.bitvector]
    exact hi
  · rintro m i ⟨x, hx, hi⟩
    exact ⟨x, by rw [h.dagmapping, hx], by rw [h.bitvector, hi]⟩
  · rintro p ⟨x, y, hx, hy, hxy⟩
    refine ⟨x, y, by rw [h.dagmapping, hx], by rw [h.dagmapping, hy], ?_⟩
    exact hxy.imp_right fun hmem ↦ (h.supsets x y).mpr (Or.inl hmem)
  · by_cases hxa : x = a
    · exact Or.inr (Or.inl hxa)
    · have hx' := (h.live_iff x).mp hx
      refine Or.inr (Or.inr ⟨not_false, hx', h.bitvector x, h.conditional x, fun y hy ↦ ?_⟩)
      rcases (h.supsets x y).mp hy with hy | ⟨hxa', _⟩
      · have hylive := (wf.supsets x y hx' hy).1
        exact ⟨y, hy, name y, hylive, by rw [h.dagmapping]; exact hylive⟩
      · exact absurd hxa' hxa

theorem NewEdge.keeps (h : NewEdge a b s s') : Keeps [] s s' := by
  rintro m i p ⟨x, hx, hp⟩
  exact Or.inl ⟨x, by rw [h.dagmapping, hx], by rw [h.conditional]; exact hp⟩

theorem NewEdge.below (h : NewEdge a b s s') {S : N → I → Prop} {val : CubicId → I → Prop}
    (hs : Below S val s) (ha : a < s.created) (hb : b < s.created)
    (hval : ∀ i, val a i → val b i) : Below S val s' := by
  constructor
  · rw [h.dagmapping]
    exact hs.mapped
  · intro x i hi
    rw [h.bitvector] at hi
    exact hs.bits x i hi
  · intro x i p hp
    rw [h.conditional] at hp
    exact hs.conds x i p hp
  · intro x y hy
    rw [h.created]
    rcases (h.supsets x y).mp hy with hy | ⟨rfl, rfl⟩
    · exact hs.supsets x y hy
    · exact ⟨hb, hval⟩
  · intro x y hy
    rw [h.created]
    rcases (h.subsets x y).mp hy with hy | ⟨rfl, rfl⟩
    · exact hs.subsets x y hy
    · exact ⟨ha, hval⟩

end Edge

end Heap

end Sipc.CubicSolver
