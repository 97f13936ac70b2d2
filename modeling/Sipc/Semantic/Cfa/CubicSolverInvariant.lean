import Mathlib.Logic.Relation
import Sipc.Semantic.Cfa.CubicSolverCorrectness

/-!
# The representation invariant of the cubic solver

What holds of the heap whenever a call has returned (`RepInvariant`). The part that is new beside
`Solves` is that the supersets of the nodes in use form no cycle. An edge is only ever added between
two nodes in use, and the search that follows it is complete: when it finds no path back, there is
none (`not_reaches_of_findPath`). So collapsing leaves no cycle, provided that every cycle passed
through the source of the new edge (`killCyclesAt_acyclic`).

`PreservedByEdges` collects what a property of the edges needs in order to survive a whole call.
-/

set_option autoImplicit false
set_option relaxedAutoImplicit false

namespace Sipc.CubicSolver

open Library Relation

variable {N I : Type}

/-- The node stands for a variable: it was not merged away. -/
def InGraph (s : CubicSolver N I) (x : CubicId) : Prop :=
  ∃ n, s.dagmapping n = some x

theorem Merged.inGraph_iff {n1 n2 : CubicId} {s s' : CubicSolver N I} (h : Merged n1 n2 s s') (h₁ : InGraph s n1)
    (hne : n1 ≠ n2) (x : CubicId) : InGraph s' x ↔ InGraph s x ∧ x ≠ n2 := by
  constructor
  · rintro ⟨m, hm⟩
    rw [h.dagmapping] at hm
    split_ifs at hm with hm2
    · obtain rfl := Option.some.inj hm
      exact ⟨h₁, hne⟩
    · refine ⟨⟨m, hm⟩, ?_⟩
      rintro rfl
      exact hm2 hm
  · rintro ⟨⟨m, hm⟩, hx⟩
    exact ⟨m, h.dagmapping_of_ne hm hx⟩

/-- An inclusion between two nodes. -/
def Edge (s : CubicSolver N I) (x y : CubicId) : Prop :=
  y ∈ (s.nodes x).supsets

/-- What holds of the solver between calls, once the variables of `constraints` were used. -/
structure RepInvariant (constraints : List (SetConstraint N I)) (s : CubicSolver N I) : Prop where
  mapped : ∀ c ∈ constraints, ∀ n ∈ c.operands, ∃ x, s.dagmapping n = some x ∧ InGraph s x
  symmetric : ∀ a b, InGraph s a → InGraph s b →
    (b ∈ (s.nodes a).supsets ↔ a ∈ (s.nodes b).subsets)
  supsets : ∀ a b, InGraph s a → b ∈ (s.nodes a).supsets → InGraph s b
  subsets : ∀ a b, InGraph s a → b ∈ (s.nodes a).subsets → InGraph s b
  acyclic : ∀ a, InGraph s a → ¬ TransGen (Edge s) a a
  irreflexive : ∀ a, a ∉ (s.nodes a).supsets
  included : ∀ a b, InGraph s a → b ∈ (s.nodes a).supsets → ∀ i,
    (s.nodes a).bitvector i = true → (s.nodes b).bitvector i = true
  activated : ∀ a i, InGraph s a → (s.nodes a).bitvector i = true →
    (s.nodes a).conditionalConstraints i = []

/-! ### The search is complete -/

section Search

variable {iter : IterationOrder} {s : CubicSolver N I}

/-- The body of the loop of `populateDistances`. -/
def discover (node : CubicId) (search : Search) (n : CubicId) : Search :=
  if (search.1 n).isSome then search
  else (Function.update search.1 n (some ((search.1 node).getD 0 + 1)), search.2 ++ [n])

/-- What a round of the search adds: the nodes of `l` are found, and what is new is in the queue. -/
structure Discovers (l : List CubicId) (search search' : Search) : Prop where
  kept : ∀ x, (search.1 x).isSome → (search'.1 x).isSome
  queued : ∀ x, (search'.1 x).isSome →
    (search.1 x).isSome ∨ x ∈ search'.2.drop search.2.length
  queue : search.2 <+: search'.2
  found : ∀ x ∈ l, (search'.1 x).isSome

theorem discover_spec (node : CubicId) (search : Search) (n : CubicId) :
    Discovers [n] search (discover node search n) := by
  unfold discover
  split_ifs with hn
  · exact ⟨fun _ h ↦ h, fun _ h ↦ Or.inl h, List.prefix_refl _, fun x hx ↦ by
      obtain rfl := List.mem_singleton.mp hx
      exact hn⟩
  · set found := Function.update search.1 n (some ((search.1 node).getD 0 + 1)) with hfound
    have hself : (found n).isSome := by
      rw [hfound, Function.update_self]
      rfl
    have hother : ∀ x, x ≠ n → found x = search.1 x := fun x hx ↦ Function.update_of_ne hx _ _
    refine ⟨fun x hx ↦ ?_, fun x hx ↦ ?_, List.prefix_append _ _, fun x hx ↦ ?_⟩
    · by_cases hxn : x = n
      · exact hxn ▸ hself
      · change (found x).isSome
        rw [hother x hxn]
        exact hx
    · by_cases hxn : x = n
      · exact Or.inr (by rw [List.drop_left]; simp [hxn])
      · change (found x).isSome at hx
        rw [hother x hxn] at hx
        exact Or.inl hx
    · obtain rfl := List.mem_singleton.mp hx
      exact hself

theorem Discovers.trans {l l' : List CubicId} {search search' search'' : Search}
    (h : Discovers l search search') (h' : Discovers l' search' search'') :
    Discovers (l ++ l') search search'' := by
  obtain ⟨rest, hrest⟩ := h.queue
  obtain ⟨rest', hrest'⟩ := h'.queue
  have hdrop : search'.2.drop search.2.length = rest := by rw [← hrest, List.drop_left]
  have hdrop' : search''.2.drop search'.2.length = rest' := by rw [← hrest', List.drop_left]
  have hall : search''.2.drop search.2.length = rest ++ rest' := by
    rw [← hrest', ← hrest, List.append_assoc, List.drop_left]
  refine ⟨fun x hx ↦ h'.kept x (h.kept x hx), fun x hx ↦ ?_, h.queue.trans h'.queue, fun x hx ↦ ?_⟩
  · rw [hall]
    rcases h'.queued x hx with hx | hx
    · refine (h.queued x hx).imp_right fun hmem ↦ ?_
      rw [hdrop] at hmem
      exact List.mem_append_left _ hmem
    · rw [hdrop'] at hx
      exact Or.inr (List.mem_append_right _ hx)
  · rcases List.mem_append.mp hx with hx | hx
    · exact h'.kept x (h.found x hx)
    · exact h'.found x hx

theorem foldl_discover (node : CubicId) :
    ∀ (l : List CubicId) (search : Search), Discovers l search (l.foldl (discover node) search)
  | [], _ => ⟨fun _ h ↦ h, fun _ h ↦ Or.inl h, List.prefix_refl _, List.forall_mem_nil _⟩
  | n :: l, search => (discover_spec node search n).trans (foldl_discover node l _)

theorem populateDistances_spec (node : CubicId) (search : Search) :
    Discovers (iter.list (s.nodes node).supsets) search (populateDistances iter s node search) :=
  foldl_discover node _ search

/-- When the search gives up, what it found is closed under supersets. -/
theorem findDistances_closed {target : CubicId} :
    ∀ (fuel : ℕ) (search : Search) (distances : CubicId → Option ℕ),
      (∀ x, (search.1 x).isSome →
        x ∈ search.2 ∨ ∀ y, Edge s x y → (search.1 y).isSome) →
      findDistances iter s target fuel search = some distances →
      (distances target).isNone = true →
      (∀ x, (search.1 x).isSome → (distances x).isSome) ∧
        ∀ x y, (distances x).isSome → Edge s x y → (distances y).isSome
  | 0, _, _, _, h, _ => by cases h
  | fuel + 1, (found, []), distances, hclosed, h, _ => by
    obtain rfl := Option.some.inj h
    exact ⟨fun _ hx ↦ hx, fun x y hx hxy ↦
      ((hclosed x hx).resolve_left (List.not_mem_nil)) y hxy⟩
  | fuel + 1, (found, curr :: queue), distances, hclosed, h, hnone => by
    have hround : Discovers _ _ (populateDistances iter s curr (found, curr :: queue)) :=
      populateDistances_spec curr (found, curr :: queue)
    obtain ⟨rest, hrest⟩ := hround.queue
    unfold findDistances at h
    simp only at h hrest
    split_ifs at h with htarget
    · obtain rfl := Option.some.inj h
      rw [Option.isNone_iff_eq_none] at hnone
      rw [hnone] at htarget
      cases htarget
    · set search' := populateDistances iter s curr (found, curr :: queue)
      have htail : search'.2.tail = queue ++ rest := by rw [← hrest]; rfl
      have hdrop : search'.2.drop (curr :: queue).length = rest := by
        rw [← hrest, List.drop_left]
      obtain ⟨hkeep, hend⟩ := findDistances_closed fuel (search'.1, search'.2.tail) distances
        (by
          intro x hx
          change (search'.1 x).isSome at hx
          change x ∈ search'.2.tail ∨ ∀ y, Edge s x y → (search'.1 y).isSome
          rw [htail]
          rcases hround.queued x hx with hx' | hx'
          · rcases hclosed x hx' with hmem | hall
            · rcases List.mem_cons.mp hmem with rfl | hmem
              · exact Or.inr fun y hy ↦ hround.found y ((iter.mem_list _ _).mpr hy)
              · exact Or.inl (List.mem_append_left _ hmem)
            · exact Or.inr fun y hy ↦ hround.kept y (hall y hy)
          · rw [hdrop] at hx'
            exact Or.inl (List.mem_append_right _ hx')) h hnone
      exact ⟨fun x hx ↦ hkeep x (hround.kept x hx), hend⟩

/-- If the search finds no path from `source` to `target`, there is none. -/
theorem not_reaches_of_findPath {fuel : ℕ} {source target : CubicId}
    (h : findPath iter fuel source target s = some []) :
    ¬ ReflTransGen (Edge s) source target := by
  unfold findPath at h
  simp only at h
  split at h
  · cases h
  next distances hfound =>
  split_ifs at h with hnone
  · set start : CubicId → Option ℕ := Function.update (fun _ ↦ none) source (some 0)
    have hround : Discovers _ _ (populateDistances iter s source (start, [])) :=
      populateDistances_spec source (start, [])
    obtain ⟨hkeep, hclosed⟩ := findDistances_closed fuel _ distances (by
      intro x hx
      rcases hround.queued x hx with hx' | hx'
      · by_cases hxs : x = source
        · subst hxs
          exact Or.inr fun y hy ↦ hround.found y ((iter.mem_list _ _).mpr hy)
        · have hstart : start x = none := Function.update_of_ne hxs _ _
          change (start x).isSome at hx'
          rw [hstart] at hx'
          cases hx'
      · exact Or.inl (by simpa using hx')) hfound hnone
    intro hreach
    have htarget : ∀ y, ReflTransGen (Edge s) source y → (distances y).isSome := by
      intro y hy
      induction hy with
      | refl =>
        refine hkeep source (hround.kept source ?_)
        have hstart : start source = some 0 := Function.update_self _ _ _
        change (start source).isSome
        rw [hstart]
        rfl
      | tail _ hxy ih => exact hclosed _ _ ih hxy
    have := htarget target hreach
    rw [Option.isNone_iff_eq_none] at hnone
    rw [hnone] at this
    cases this
  · obtain ⟨⟨rest, hpath⟩, -⟩ := backtrack_spec iter s distances fuel target [] [] h
      (List.IsChain.singleton target)
    cases hpath

/-- If no superset of `n` has a path back, then `n` lies on no cycle. -/
theorem firstPath_eq_nil {fuel : ℕ} {n : CubicId} :
    ∀ {ts : List CubicId}, firstPath iter fuel n s ts = some [] →
      ∀ t ∈ ts, ¬ ReflTransGen (Edge s) t n
  | t :: ts, h, t', ht' => by
    unfold firstPath at h
    split at h
    · cases h
    · next hfind =>
      rcases List.mem_cons.mp ht' with rfl | ht'
      · exact not_reaches_of_findPath hfind
      · exact firstPath_eq_nil h t' ht'
    · next hne _ =>
      exact absurd (Option.some.inj h) hne

end Search

/-! ### Collapsing leaves no cycle -/

/-- No node has an edge to itself, and the edges between nodes in use form no cycle. -/
structure Acyclic (s : CubicSolver N I) : Prop where
  irreflexive : ∀ x, ¬ Edge s x x
  acyclic : ∀ x, InGraph s x → ¬ TransGen (Edge s) x x

/-- An edge that does not lead to `n`. -/
def EdgeAvoiding (n : CubicId) (s : CubicSolver N I) (x y : CubicId) : Prop :=
  Edge s x y ∧ y ≠ n

/-- A path either avoids `n` or passes through it. -/
theorem avoids_or_passes {s : CubicSolver N I} (n : CubicId) {x y : CubicId}
    (h : TransGen (Edge s) x y) :
    TransGen (EdgeAvoiding n s) x y ∨ (TransGen (Edge s) x n ∧ ReflTransGen (Edge s) n y) := by
  induction h with
  | @single y hxy =>
    by_cases hy : y = n
    · subst hy
      exact Or.inr ⟨TransGen.single hxy, ReflTransGen.refl⟩
    · exact Or.inl (TransGen.single ⟨hxy, hy⟩)
  | @tail y z hxy hyz ih =>
    by_cases hz : z = n
    · subst hz
      exact Or.inr ⟨hxy.tail hyz, ReflTransGen.refl⟩
    · rcases ih with ih | ⟨ih, ih'⟩
      · exact Or.inl (ih.tail ⟨hyz, hz⟩)
      · exact Or.inr ⟨ih, ih'.tail hyz⟩

/-- Merging adds edges only to and from the node merged into. -/
theorem foldl_mergeNodes_edge (iter : IterationOrder) {a : CubicId} :
    ∀ (rest : List CubicId) (s : CubicSolver N I), (∀ x, ¬ Edge s x x) → a ∉ rest →
      let s' := rest.foldl (fun s b ↦ mergeNodes iter a b s) s
      (∀ x, ¬ Edge s' x x) ∧ ∀ x y, x ≠ a → y ≠ a → Edge s' x y → Edge s x y
  | [], _, hloop, _ => ⟨hloop, fun _ _ _ _ h ↦ h⟩
  | b :: rest, s, hloop, ha => by
    have hab : a ≠ b := fun heq ↦ ha (heq ▸ List.mem_cons_self)
    have hm := merged_mergeNodes iter hab (hloop b)
    have hedge : ∀ x y, x ≠ a → y ≠ a → Edge (mergeNodes iter a b s) x y → Edge s x y := by
      intro x y hx hy hxy
      rcases (hm.supsets x y hx).mp hxy with ⟨-, hy' | ⟨-, hy'⟩⟩ | ⟨-, hy'⟩
      · exact absurd hy' hy
      · exact hy'
      · exact hy'
    have hloop' : ∀ x, ¬ Edge (mergeNodes iter a b s) x x := by
      intro x hxx
      by_cases hx : x = a
      · subst hx
        rcases (hm.supsets_left x).mp hxx with ⟨-, h | ⟨-, h⟩⟩
        · exact hloop x h
        · exact h rfl
      · exact hloop x (hedge x x hx hx hxx)
    obtain ⟨hloop'', hedge'⟩ := foldl_mergeNodes_edge iter rest _ hloop'
      fun hmem ↦ ha (List.mem_cons_of_mem _ hmem)
    exact ⟨hloop'', fun x y hx hy hxy ↦ hedge x y hx hy (hedge' x y hx hy hxy)⟩

section Invariant

variable {name : CubicId → N}

theorem WellFormed.inGraph_iff {s : CubicSolver N I} {P : CubicId → Prop}
    (wf : WellFormed name P s) (x : CubicId) : InGraph s x ↔ Live name s x :=
  ⟨fun ⟨n, hn⟩ ↦ wf.live n x hn, fun h ↦ ⟨name x, h⟩⟩

/-- If every cycle passes through `n`, then `killCyclesAt` leaves no cycle. -/
theorem killCyclesAt_acyclic (iter : IterationOrder) :
    ∀ (fuel : ℕ) (n : CubicId) (s : CubicSolver N I) (n' : CubicId) (s' : CubicSolver N I),
      WellFormed name (fun _ ↦ False) s → Live name s n → (∀ x, ¬ Edge s x x) →
      (∀ x, Live name s x → ¬ TransGen (EdgeAvoiding n s) x x) →
      killCyclesAt iter fuel n s = some (n', s') → Acyclic s'
  | 0, _, _, _, _, _, _, _, _, h => by cases h
  | fuel + 1, n, s, n', s', wf, hn, hloop, havoid, h => by
    unfold killCyclesAt at h
    split at h
    · cases h
    · next hnil =>
      obtain ⟨rfl, rfl⟩ := Prod.mk.inj (Option.some.inj h)
      refine ⟨hloop, fun x hx hcycle ↦ ?_⟩
      rcases avoids_or_passes n hcycle with hcycle | ⟨hxn, hnx⟩
      · exact havoid x ((wf.inGraph_iff x).mp hx) hcycle
      · obtain ⟨t, hnt, htn⟩ := TransGen.head'_iff.mp (TransGen.trans_right hnx hxn)
        exact firstPath_eq_nil hnil t ((iter.mem_list _ _).mpr hnt) htn
    · next path hne hpath =>
      obtain ⟨t, rest, rfl, -, hnrest, hnodup, -, -, -, hm⟩ :=
        mergedPath_of_firstPath iter wf hn hne hpath
      unfold mergePath at h
      simp only at h
      obtain ⟨hloop', hedge⟩ := foldl_mergeNodes_edge iter rest s hloop (List.nodup_cons.mp hnodup).1
      set s₁ := rest.foldl (fun s b ↦ mergeNodes iter t b s) s
      refine killCyclesAt_acyclic iter fuel t s₁ n' s' hm.wellFormed hm.survivor hloop' ?_ h
      -- a cycle that avoids the merged node was there before, and avoided the whole path
      intro x hx hcycle
      have hold : ∀ y, Live name s₁ y → y ≠ t → Live name s y ∧ y ≠ n := by
        intro y hy hyt
        obtain ⟨hyrest, hys, -⟩ := (hm.live y hy).resolve_left hyt
        exact ⟨hys, fun hyn ↦ hyrest (hyn ▸ hnrest)⟩
      have hxt : x ≠ t := by
        obtain ⟨y, -, -, hxt⟩ := TransGen.tail'_iff.mp hcycle
        exact hxt
      have hpath : ∀ y, TransGen (EdgeAvoiding t s₁) x y →
          Live name s₁ y ∧ TransGen (EdgeAvoiding n s) x y := by
        intro y hy
        induction hy with
        | @single y hxy =>
          have hylive := (hm.wellFormed.supsets x y hx hxy.1).1
          exact ⟨hylive, TransGen.single ⟨hedge x y hxt hxy.2 hxy.1, (hold y hylive hxy.2).2⟩⟩
        | @tail y z hxy hyz ih =>
          obtain ⟨hylive, ih⟩ := ih
          have hyt : y ≠ t := by
            obtain ⟨_, -, -, hyt⟩ := TransGen.tail'_iff.mp hxy
            exact hyt
          have hzlive := (hm.wellFormed.supsets y z hylive hyz.1).1
          exact ⟨hzlive, ih.tail ⟨hedge y z hyt hyz.2 hyz.1, (hold z hzlive hyz.2).2⟩⟩
      exact havoid x (hold x hx hxt).1 (hpath x hcycle).2

/-- A new edge followed by the collapse of its cycles leaves no cycle. -/
theorem Acyclic.newEdge {iter : IterationOrder} {fuel : ℕ} {a b n : CubicId}
    {s s₁ s' : CubicSolver N I} (h : Acyclic s) (wf : WellFormed name (fun _ ↦ False) s)
    (ha : Live name s a) (hb : Live name s b) (hab : a ≠ b) (hedge : NewEdge a b s s₁)
    (hkill : killCyclesAt iter fuel a s₁ = some (n, s')) : Acyclic s' := by
  refine killCyclesAt_acyclic iter fuel a s₁ n s' (hedge.wellFormed wf ha hb hab)
    ((hedge.live_iff a).mpr ha) (fun x hxx ↦ ?_) (fun x hx hcycle ↦ ?_) hkill
  · rcases (hedge.supsets x x).mp hxx with hxx | ⟨hxa, hxb⟩
    · exact h.irreflexive x hxx
    · exact hab (hxa.symm.trans hxb)
  · -- a cycle that avoids `a` does not use the new edge
    have hxa : x ≠ a := by
      obtain ⟨y, -, -, hxa⟩ := TransGen.tail'_iff.mp hcycle
      exact hxa
    have hpath : ∀ y, TransGen (EdgeAvoiding a s₁) x y → TransGen (Edge s) x y := by
      intro y hy
      induction hy with
      | @single y hxy =>
        refine TransGen.single (((hedge.supsets x y).mp hxy.1).resolve_right fun heq ↦ hxa heq.1)
      | @tail y z hxy hyz ih =>
        have hya : y ≠ a := by
          obtain ⟨_, -, -, hya⟩ := TransGen.tail'_iff.mp hxy
          exact hya
        exact ih.tail (((hedge.supsets y z).mp hyz.1).resolve_right fun heq ↦ hya heq.1)
    exact h.acyclic x ((wf.inGraph_iff x).mpr ((hedge.live_iff x).mp hx)) (hpath x hcycle)

/-- Changes of bits and of waiting constraints leave the edges alone. -/
theorem Acyclic.changedAt {x : CubicId} {s s' : CubicSolver N I} (h : Acyclic s)
    (hchange : ChangedAt x s s') : Acyclic s' := by
  have hedge : Edge s' = Edge s := by
    funext y z
    unfold Edge
    rw [hchange.supsets]
  refine ⟨?_, fun y ⟨n, hn⟩ ↦ ?_⟩
  · rw [hedge]
    exact h.irreflexive
  · rw [hedge]
    rw [hchange.dagmapping] at hn
    exact h.acyclic y ⟨n, hn⟩

theorem Acyclic.addEmptyVariableIfNecessary [DecidableEq N] {s : CubicSolver N I}
    (h : Acyclic s) (m : N) : Acyclic (s.addEmptyVariableIfNecessary m) := by
  unfold CubicSolver.addEmptyVariableIfNecessary
  split
  · exact h
  set s' : CubicSolver N I :=
    { nodes := Function.update s.nodes s.created (CubicSolverNode.new N I)
      created := s.created + 1
      dagmapping := Function.update s.dagmapping m (some s.created) }
  have hnew : ∀ y, ¬ Edge s' s.created y := by
    intro y hy
    have hnode : s'.nodes s.created = CubicSolverNode.new N I := Function.update_self _ _ _
    unfold Edge at hy
    rw [hnode] at hy
    exact Finset.notMem_empty y hy
  have hedge : ∀ x y, Edge s' x y → Edge s x y := by
    intro x y hxy
    by_cases hx : x = s.created
    · exact absurd (hx ▸ hxy) (hnew y)
    · have hnode : s'.nodes x = s.nodes x := Function.update_of_ne hx _ _
      unfold Edge at hxy ⊢
      rw [← hnode]
      exact hxy
  refine ⟨fun x hxx ↦ h.irreflexive x (hedge x x hxx), fun x hx hcycle ↦ ?_⟩
  by_cases hxc : x = s.created
  · subst hxc
    obtain ⟨y, hy, -⟩ := TransGen.head'_iff.mp hcycle
    exact hnew y hy
  · obtain ⟨n, hn⟩ := hx
    refine h.acyclic x ⟨n, ?_⟩ (TransGen.mono hedge x x hcycle)
    by_cases hnm : n = m
    · subst hnm
      have heq : some s.created = some x :=
        (Function.update_self n (some s.created) s.dagmapping).symm.trans hn
      exact absurd (Option.some.inj heq).symm hxc
    · exact (Function.update_of_ne hnm _ _).symm.trans hn

/-! ### Whole calls -/

/-- A property of the state that every step of a loop keeps. -/
theorem foldlM_keeps {α σ : Type} {f : σ → α → Option σ} {P : σ → Prop} :
    ∀ (l : List α) (s s' : σ), (∀ a ∈ l, ∀ s s', P s → f s a = some s' → P s') → P s →
      l.foldlM f s = some s' → P s'
  | [], s, s', _, hs, h => by
    obtain rfl := Option.some.inj h
    exact hs
  | a :: l, s, s', hstep, hs, h => by
    rw [List.foldlM_cons] at h
    obtain ⟨s₁, h₁, h₂⟩ := Option.bind_eq_some_iff.mp h
    exact foldlM_keeps l s₁ s' (fun b hb ↦ hstep b (List.mem_cons_of_mem _ hb))
      (hstep a List.mem_cons_self s s₁ hs h₁) h₂

/-- What holds while a call runs: the heap is well formed and without cycles, and it has the nodes
it had when the call started. -/
structure Running (name : CubicId → N) (created : ℕ) (s : CubicSolver N I) : Prop where
  wellFormed : WellFormed name (fun _ ↦ False) s
  acyclic : Acyclic s
  created : s.created = created

theorem Running.changedAt {created : ℕ} {x : CubicId} {s s' : CubicSolver N I}
    (h : Running name created s) (hchange : ChangedAt x s s') : Running name created s' :=
  ⟨hchange.wellFormed h.wellFormed, h.acyclic.changedAt hchange, hchange.created.trans h.created⟩

/-- Calls of `propagate` that return keep what holds while a call runs. -/
def KeepsRunning (name : CubicId → N)
    (propagate : CubicId → CubicSolver N I → Option (CubicSolver N I)) : Prop :=
  ∀ created x s s', Running name created s → x < created → propagate x s = some s' →
    Running name created s'

/-- What `activateWith` does before it propagates: the state is running, with the node to propagate
from. -/
theorem activateWith_cases (iter : IterationOrder) (fuel : ℕ) {created : ℕ} (source target : N)
    {s : CubicSolver N I} (h : Running name created s) :
    (∀ propagate, activateWith iter fuel propagate source target s = some s) ∨
    (∀ propagate, activateWith iter fuel propagate source target s = none) ∨
    ∃ n s₁, Running name created s₁ ∧ n < created ∧
      ∀ propagate, activateWith iter fuel propagate source target s = propagate n s₁ := by
  unfold activateWith
  split
  · next a b ha hb =>
    by_cases hab : a = b
    · exact Or.inl fun _ ↦ by rw [if_pos hab]
    simp only [if_neg hab]
    have hla := h.wellFormed.live _ _ ha
    have hlb := h.wellFormed.live _ _ hb
    have hedge := newEdge_modify s a b
    set s₁ := (s.modify a fun x ↦ { x with supsets := insert b x.supsets }).modify b
      fun x ↦ { x with subsets := insert a x.subsets }
    have hwf₁ := hedge.wellFormed h.wellFormed hla hlb hab
    cases hkill : killCyclesAt iter fuel a s₁ with
    | none => exact Or.inr (Or.inl fun _ ↦ rfl)
    | some p =>
      obtain ⟨n, s₂⟩ := p
      have hset := (killCyclesAt_spec iter fuel a s₁ n s₂ hwf₁
        ((hedge.live_iff a).mpr hla) hkill).1
      have hrunning : Running name created s₂ :=
        ⟨hset.wellFormed, h.acyclic.newEdge h.wellFormed hla hlb hab hedge hkill,
          hset.grows.created.trans (hedge.created.trans h.created)⟩
      cases hsource : s₂.dagmapping source with
      | none => exact Or.inr (Or.inl fun _ ↦ by simp only [hsource])
      | some m =>
        refine Or.inr (Or.inr ⟨m, s₂, hrunning, ?_, fun _ ↦ by simp only [hsource]⟩)
        rw [← hrunning.created]
        exact hset.wellFormed.lt _ _ hsource
  · exact Or.inr (Or.inl fun _ ↦ rfl)

theorem activateWith_running {iter : IterationOrder} {fuel created : ℕ} {source target : N}
    {propagate : CubicId → CubicSolver N I → Option (CubicSolver N I)}
    (hpropagate : KeepsRunning name propagate) {s s' : CubicSolver N I}
    (h : Running name created s)
    (hact : activateWith iter fuel propagate source target s = some s') :
    Running name created s' := by
  rcases activateWith_cases iter fuel source target h with hsame | hnone | ⟨n, s₁, hrunning, hn, hcall⟩
  · rw [hsame] at hact
    exact Option.some.inj hact ▸ h
  · rw [hnone] at hact
    cases hact
  · rw [hcall] at hact
    exact hpropagate created n s₁ s' hrunning hn hact

/-- Two loops take the same steps as long as a property holds that the steps keep. -/
theorem foldlM_congr_of_keeps {α σ : Type} {f g : σ → α → Option σ} {P : σ → Prop} :
    ∀ (l : List α) (s : σ), (∀ a ∈ l, ∀ s, P s → g s a = f s a) →
      (∀ a ∈ l, ∀ s s', P s → f s a = some s' → P s') → P s → l.foldlM g s = l.foldlM f s
  | [], _, _, _, _ => rfl
  | a :: l, s, hsame, hstep, hs => by
    rw [List.foldlM_cons, List.foldlM_cons, hsame a List.mem_cons_self s hs]
    cases hf : f s a with
    | none => rfl
    | some s₁ =>
      exact foldlM_congr_of_keeps l s₁ (fun b hb ↦ hsame b (List.mem_cons_of_mem _ hb))
        (fun b hb ↦ hstep b (List.mem_cons_of_mem _ hb)) (hstep a List.mem_cons_self s s₁ hs hf)

end Invariant

section Unchecked

variable [DecidableEq I] (indices : List I) (iter : IterationOrder)

/-- The second loop body of `propagateNodeChanges`, compiled without its assertion. -/
def propagateToUnchecked (propagate : CubicId → CubicSolver N I → Option (CubicSolver N I))
    (node : CubicId) (s : CubicSolver N I) (sups : CubicId) : Option (CubicSolver N I) :=
  propagate sups (s.modify sups fun x ↦ { x with
    bitvector := fun i ↦ x.bitvector i || (s.nodes node).bitvector i })

/-- `CubicSolver::propagateNodeChanges`, compiled without its assertion. -/
def propagateNodeChangesUnchecked : ℕ → CubicId → CubicSolver N I → Option (CubicSolver N I)
  | 0, _, _ => none
  | fuel + 1, node, s => do
    let s ← indices.foldlM
      (activateIndex (activateWith iter fuel (propagateNodeChangesUnchecked fuel)) node) s
    (iter.list (s.nodes node).supsets).foldlM
      (propagateToUnchecked (propagateNodeChangesUnchecked fuel) node) s

/-- The calls that add constraints, over the given `propagateNodeChanges`. -/
def addConstraintWith [DecidableEq N] (fuel : ℕ)
    (propagate : CubicId → CubicSolver N I → Option (CubicSolver N I)) (s : CubicSolver N I) :
    SetConstraint N I → Option (CubicSolver N I)
  | .elementof f n =>
    let s := s.addEmptyVariableIfNecessary n
    match s.dagmapping n with
    | none => none
    | some x => propagate x (s.modify x fun x ↦ { x with
        bitvector := Function.update x.bitvector f true })
  | .subseteq a b =>
    activateWith iter fuel propagate a b
      ((s.addEmptyVariableIfNecessary a).addEmptyVariableIfNecessary b)
  | .conditional f n a b =>
    let s := ((s.addEmptyVariableIfNecessary n).addEmptyVariableIfNecessary
      a).addEmptyVariableIfNecessary b
    match s.dagmapping n with
    | none => none
    | some x => propagate x (s.modify x fun x ↦ { x with
        conditionalConstraints := Function.update x.conditionalConstraints f
          (x.conditionalConstraints f ++ [(a, b)]) })

/-- Add the constraints of a list to a new solver that was compiled without assertions. -/
def solveConstraintsUnchecked [DecidableEq N] (fuel : ℕ)
    (constraints : List (SetConstraint N I)) : Option (CubicSolver N I) :=
  constraints.foldlM
    (addConstraintWith iter fuel (propagateNodeChangesUnchecked indices iter fuel)) (new N I)

theorem addConstraint_eq_with [DecidableEq N] (fuel : ℕ) (s : CubicSolver N I)
    (c : SetConstraint N I) :
    addConstraint indices iter fuel s c =
      addConstraintWith iter fuel (propagateNodeChanges indices iter fuel) s c := by
  cases c <;> rfl

variable {indices iter} {name : CubicId → N}

/-- Removing the constraints that wait for the function `i` at a node. -/
theorem changedAt_clear (s : CubicSolver N I) (x : CubicId) (i : I) :
    ChangedAt x s (s.modify x fun n ↦ { n with
      conditionalConstraints := Function.update n.conditionalConstraints i [] }) :=
  changedAt_modify (fun _ ↦ rfl) (fun _ ↦ rfl) fun _ _ h ↦ h

omit [DecidableEq I] in
theorem changedAt_include (s : CubicSolver N I) (x y : CubicId) :
    ChangedAt y s (s.modify y fun n ↦ { n with
      bitvector := fun i ↦ n.bitvector i || (s.nodes x).bitvector i }) :=
  changedAt_modify (fun _ ↦ rfl) (fun _ ↦ rfl) fun _ _ h ↦ by simp [h]

theorem activateIndex_running {fuel created : ℕ} {x : CubicId} {i : I}
    {propagate : CubicId → CubicSolver N I → Option (CubicSolver N I)}
    (hpropagate : KeepsRunning name propagate) {s s' : CubicSolver N I}
    (h : Running name created s)
    (hact : activateIndex (activateWith iter fuel propagate) x s i = some s') :
    Running name created s' := by
  unfold activateIndex at hact
  split_ifs at hact
  · exact foldlM_keeps _ _ s' (fun _ _ _ _ hs hf ↦ activateWith_running hpropagate hs hf)
      (h.changedAt (changedAt_clear s x i)) hact
  · exact Option.some.inj hact ▸ h

/-- The assertion of `propagateNodeChanges` never fails, and a call keeps what holds while a call
runs. -/
theorem propagateNodeChanges_running :
    ∀ fuel : ℕ, KeepsRunning name (propagateNodeChanges (N := N) indices iter fuel) ∧
      ∀ created x s, Running name created s → x < created →
        propagateNodeChangesUnchecked indices iter fuel x s =
          propagateNodeChanges indices iter fuel x s
  | 0 => ⟨fun _ _ _ _ _ _ h ↦ (by cases h), fun _ _ _ _ _ ↦ rfl⟩
  | fuel + 1 => by
    obtain ⟨hkeeps, hsame⟩ := propagateNodeChanges_running fuel
    have hactivate : ∀ created x s s', Running name created s →
        indices.foldlM (activateIndex (activateWith iter fuel
          (propagateNodeChanges (N := N) indices iter fuel)) x) s = some s' →
        Running name created s' := fun created x s s' hs h ↦
      foldlM_keeps _ _ s' (fun _ _ _ _ hs hf ↦ activateIndex_running hkeeps hs hf) hs h
    -- one round of the second loop
    have hto : ∀ created x y s, Running name created s → y < created → y ≠ x →
        propagateToUnchecked (propagateNodeChangesUnchecked (N := N) indices iter fuel) x s y =
          propagateTo (propagateNodeChanges indices iter fuel) x s y ∧
        ∀ s', propagateTo (propagateNodeChanges (N := N) indices iter fuel) x s y = some s' →
          Running name created s' := by
      intro created x y s hs hy hyx
      have hs' := hs.changedAt (changedAt_include s x y)
      unfold propagateToUnchecked propagateTo
      rw [if_neg hyx]
      exact ⟨hsame created y _ hs' hy, fun s' h ↦ hkeeps created y _ s' hs' hy h⟩
    have hsup : ∀ created x (s : CubicSolver N I), Running name created s → x < created →
        ∀ y ∈ iter.list (s.nodes x).supsets, y < created ∧ y ≠ x := by
      intro created x s hs hx y hy
      have hmem := (iter.mem_list _ _).mp hy
      refine ⟨hs.created ▸ hs.wellFormed.known x y (hs.created ▸ hx) hmem, ?_⟩
      rintro rfl
      exact hs.acyclic.irreflexive y hmem
    constructor
    · intro created x s s' hs hx h
      unfold propagateNodeChanges at h
      obtain ⟨s₁, h₁, h₂⟩ := Option.bind_eq_some_iff.mp h
      have hs₁ := hactivate created x s s₁ hs h₁
      exact foldlM_keeps _ _ s' (fun y hy s s' hs hf ↦
        (hto created x y s hs (hsup created x s₁ hs₁ hx y hy).1
          (hsup created x s₁ hs₁ hx y hy).2).2 s' hf) hs₁ h₂
    · intro created x s hs hx
      unfold propagateNodeChangesUnchecked propagateNodeChanges
      have hfirst : indices.foldlM (activateIndex (activateWith iter fuel
            (propagateNodeChangesUnchecked indices iter fuel)) x) s =
          indices.foldlM (activateIndex (activateWith iter fuel
            (propagateNodeChanges indices iter fuel)) x) s := by
        refine foldlM_congr_of_keeps (P := Running name created) _ s (fun i _ s hs ↦ ?_)
          (fun i _ s s' hs hf ↦ activateIndex_running hkeeps hs hf) hs
        unfold activateIndex
        split_ifs
        · refine foldlM_congr_of_keeps (P := Running name created) _ _ (fun p _ s hs ↦ ?_)
            (fun p _ s s' hs hf ↦ activateWith_running hkeeps hs hf)
            (hs.changedAt (changedAt_clear s x i))
          rcases activateWith_cases iter fuel p.1 p.2 hs with hsame' | hnone | ⟨n, s₁, hs₁, hn, hcall⟩
          · rw [hsame', hsame']
          · rw [hnone, hnone]
          · rw [hcall, hcall]
            exact hsame created n s₁ hs₁ hn
        · rfl
      rw [hfirst]
      cases h₁ : indices.foldlM (activateIndex (activateWith iter fuel
          (propagateNodeChanges indices iter fuel)) x) s with
      | none => rfl
      | some s₁ =>
        have hs₁ := hactivate created x s s₁ hs h₁
        have hbound := hsup created x s₁ hs₁ hx
        exact foldlM_congr_of_keeps (P := Running name created) _ s₁
          (fun y hy s hs ↦ (hto created x y s hs (hbound y hy).1 (hbound y hy).2).1)
          (fun y hy s s' hs hf ↦ (hto created x y s hs (hbound y hy).1 (hbound y hy).2).2 s' hf) hs₁

/-! ### Between calls -/

omit [DecidableEq I] in
theorem isSome_addEmptyVariableIfNecessary [DecidableEq N] (s : CubicSolver N I) (m n : N)
    (h : n = m ∨ (s.dagmapping n).isSome) :
    ((s.addEmptyVariableIfNecessary m).dagmapping n).isSome := by
  unfold CubicSolver.addEmptyVariableIfNecessary
  split
  · next x hx =>
    rcases h with rfl | h
    · rw [hx]
      rfl
    · exact h
  · change (Function.update s.dagmapping m (some s.created) n).isSome
    by_cases hn : n = m
    · subst hn
      rw [Function.update_self]
      rfl
    · rw [Function.update_of_ne hn]
      exact h.resolve_left hn

omit [DecidableEq I] in
theorem Grows.isSome {s s' : CubicSolver N I} (h : Grows s s') {n : N}
    (hn : (s.dagmapping n).isSome) : (s'.dagmapping n).isSome := by
  obtain ⟨ρ, hρ⟩ := h.factor
  rw [hρ, Option.isSome_map]
  exact hn

variable (iter) in
/-- The state in which a call that adds a constraint starts to work: its variables have nodes. -/
theorem exists_running_addConstraint [DecidableEq N] {constraints : List (SetConstraint N I)}
    {s : CubicSolver N I} (hs : Solves constraints name s) (hacyclic : Acyclic s)
    (c : SetConstraint N I) (fuel : ℕ) :
    ∃ (name' : CubicId → N) (s₁ : CubicSolver N I), Running name' s₁.created s₁ ∧
      (∀ n, n ∈ c.operands ∨ (s.dagmapping n).isSome → (s₁.dagmapping n).isSome) ∧
      ((∃ p : N × N, ∀ propagate,
        addConstraintWith iter fuel propagate s c = activateWith iter fuel propagate p.1 p.2 s₁) ∨
      ∃ x, x < s₁.created ∧ ∀ propagate, addConstraintWith iter fuel propagate s c =
        propagate x s₁) := by
  cases c with
  | elementof f n =>
    obtain ⟨name₁, hs₁⟩ := hs.addEmptyVariableIfNecessary n
    have hmapped := isSome_addEmptyVariableIfNecessary s n
    obtain ⟨x, hx⟩ := Option.isSome_iff_exists.mp (hmapped n (Or.inl rfl))
    set s₁ := s.addEmptyVariableIfNecessary n with hs₁'
    set s₂ := s₁.modify x fun x ↦ { x with
      bitvector := Function.update x.bitvector f true } with hs₂
    have hchange : ChangedAt x s₁ s₂ := changedAt_modify (fun _ ↦ rfl) (fun _ ↦ rfl)
      fun n i hi ↦ by by_cases hif : i = f <;> simp [hif, hi]
    have hrunning : Running name₁ s₁.created s₁ :=
      ⟨hs₁.wellFormed, hacyclic.addEmptyVariableIfNecessary n, rfl⟩
    refine ⟨name₁, s₂, hrunning.changedAt hchange, fun m hm ↦ hmapped m (hm.imp_left fun h ↦ ?_),
      Or.inr ⟨x, hs₁.wellFormed.lt _ _ hx, fun propagate ↦ ?_⟩⟩
    · exact List.mem_singleton.mp h
    · simp only [addConstraintWith, ← hs₁', hx, ← hs₂]
  | subseteq a b =>
    obtain ⟨name₁, hs₁⟩ := hs.addEmptyVariableIfNecessary a
    obtain ⟨name₂, hs₂⟩ := hs₁.addEmptyVariableIfNecessary b
    refine ⟨name₂, _, ⟨hs₂.wellFormed, (hacyclic.addEmptyVariableIfNecessary
      a).addEmptyVariableIfNecessary b, rfl⟩, fun m hm ↦ ?_, Or.inl ⟨(a, b), fun _ ↦ rfl⟩⟩
    refine isSome_addEmptyVariableIfNecessary _ b m ?_
    simp only [SetConstraint.operands, List.mem_cons, List.not_mem_nil, or_false] at hm
    rcases hm with (rfl | rfl) | hm
    · exact Or.inr (isSome_addEmptyVariableIfNecessary s m m (Or.inl rfl))
    · exact Or.inl rfl
    · exact Or.inr (isSome_addEmptyVariableIfNecessary s a m (Or.inr hm))
  | conditional f n a b =>
    obtain ⟨name₁, hs₁⟩ := hs.addEmptyVariableIfNecessary n
    obtain ⟨name₂, hs₂⟩ := hs₁.addEmptyVariableIfNecessary a
    obtain ⟨name₃, hs₃⟩ := hs₂.addEmptyVariableIfNecessary b
    have hmapped : ∀ m, m ∈ (SetConstraint.conditional f n a b).operands ∨
        (s.dagmapping m).isSome → ((((s.addEmptyVariableIfNecessary n).addEmptyVariableIfNecessary
          a).addEmptyVariableIfNecessary b).dagmapping m).isSome := by
      intro m hm
      simp only [SetConstraint.operands, List.mem_cons, List.not_mem_nil, or_false] at hm
      refine isSome_addEmptyVariableIfNecessary _ b m ?_
      rcases hm with (rfl | rfl | rfl) | hm
      · exact Or.inr (isSome_addEmptyVariableIfNecessary _ a m
          (Or.inr (isSome_addEmptyVariableIfNecessary s m m (Or.inl rfl))))
      · exact Or.inr (isSome_addEmptyVariableIfNecessary _ m m (Or.inl rfl))
      · exact Or.inl rfl
      · exact Or.inr (isSome_addEmptyVariableIfNecessary _ a m
          (Or.inr (isSome_addEmptyVariableIfNecessary s n m (Or.inr hm))))
    obtain ⟨x, hx⟩ := Option.isSome_iff_exists.mp (hmapped n (Or.inl List.mem_cons_self))
    set s₁ := ((s.addEmptyVariableIfNecessary n).addEmptyVariableIfNecessary
      a).addEmptyVariableIfNecessary b with hs₁'
    set s₂ := s₁.modify x fun x ↦ { x with
      conditionalConstraints := Function.update x.conditionalConstraints f
        (x.conditionalConstraints f ++ [(a, b)]) } with hs₂'
    have hchange : ChangedAt x s₁ s₂ := changedAt_modify (fun _ ↦ rfl) (fun _ ↦ rfl)
      fun _ _ hi ↦ hi
    have hrunning : Running name₃ s₁.created s₁ :=
      ⟨hs₃.wellFormed, ((hacyclic.addEmptyVariableIfNecessary
        n).addEmptyVariableIfNecessary a).addEmptyVariableIfNecessary b, rfl⟩
    refine ⟨name₃, s₂, hrunning.changedAt hchange, hmapped,
      Or.inr ⟨x, hs₃.wellFormed.lt _ _ hx, fun propagate ↦ ?_⟩⟩
    simp only [addConstraintWith, ← hs₁', hx, ← hs₂']

variable (iter) in
/-- A call that adds a constraint never fails the assertion, keeps the heap free of cycles and leaves
every variable with a node. -/
theorem addConstraint_running [DecidableEq N] (hindices : ∀ i, i ∈ indices)
    {constraints : List (SetConstraint N I)} {s : CubicSolver N I}
    (hs : Solves constraints name s) (hacyclic : Acyclic s) (c : SetConstraint N I) (fuel : ℕ) :
    addConstraintWith iter fuel (propagateNodeChangesUnchecked indices iter fuel) s c =
      addConstraint indices iter fuel s c ∧
    ∀ s', addConstraint indices iter fuel s c = some s' → Acyclic s' ∧
      ∀ n, n ∈ c.operands ∨ (s.dagmapping n).isSome → (s'.dagmapping n).isSome := by
  obtain ⟨name', s₁, hrunning, hmapped, hcall⟩ :=
    exists_running_addConstraint iter hs hacyclic c fuel
  obtain ⟨hkeeps, hsame⟩ : KeepsRunning name' (propagateNodeChanges indices iter fuel) ∧ _ :=
    propagateNodeChanges_running fuel
  rw [addConstraint_eq_with]
  rcases hcall with ⟨p, hcall⟩ | ⟨x, hx, hcall⟩
  · rw [hcall, hcall]
    constructor
    · rcases activateWith_cases iter fuel p.1 p.2 hrunning with h | h | ⟨n, s₂, hs₂, hn, h⟩
      · rw [h, h]
      · rw [h, h]
      · rw [h, h]
        exact hsame _ n s₂ hs₂ hn
    · intro s' h
      have hgrows := (activateWith_spec (propagateNodeChanges_spec hindices fuel)
        hrunning.wellFormed h).settles.grows
      exact ⟨(activateWith_running hkeeps hrunning h).acyclic,
        fun n hn ↦ hgrows.isSome (hmapped n hn)⟩
  · rw [hcall, hcall]
    refine ⟨hsame _ x s₁ hrunning hx, fun s' h ↦ ?_⟩
    have hgrows := (propagateNodeChanges_spec hindices fuel x s₁ s' hrunning.wellFormed
      hx h).settles.grows
    exact ⟨(hkeeps _ x s₁ s' hrunning hx h).acyclic, fun n hn ↦ hgrows.isSome (hmapped n hn)⟩

variable (iter) in
theorem foldlM_addConstraint_running [DecidableEq N] (hindices : ∀ i, i ∈ indices) {fuel : ℕ} :
    ∀ (cs done : List (SetConstraint N I)) (name : CubicId → N) (s : CubicSolver N I),
      Solves done name s → Acyclic s →
      (∀ c ∈ done, ∀ n ∈ c.operands, (s.dagmapping n).isSome) →
      cs.foldlM (addConstraintWith iter fuel (propagateNodeChangesUnchecked indices iter fuel)) s =
        cs.foldlM (addConstraint indices iter fuel) s ∧
      ∀ s', cs.foldlM (addConstraint indices iter fuel) s = some s' →
        ∃ name', Solves (done ++ cs) name' s' ∧ Acyclic s' ∧
          ∀ c ∈ done ++ cs, ∀ n ∈ c.operands, (s'.dagmapping n).isSome
  | [], done, name, s, hs, hacyclic, hmapped => by
    refine ⟨rfl, fun s' h ↦ ?_⟩
    obtain rfl := Option.some.inj h
    rw [List.append_nil]
    exact ⟨name, hs, hacyclic, hmapped⟩
  | c :: cs, done, name, s, hs, hacyclic, hmapped => by
    obtain ⟨hsame, hnext⟩ := addConstraint_running iter hindices hs hacyclic c fuel
    rw [List.foldlM_cons, List.foldlM_cons, hsame]
    cases h₁ : addConstraint indices iter fuel s c with
    | none => exact ⟨rfl, fun s' h ↦ by cases h⟩
    | some s₁ =>
      obtain ⟨hacyclic₁, hmapped₁⟩ := hnext s₁ h₁
      obtain ⟨name₁, hs₁⟩ := hs.addConstraint hindices h₁
      have happend : done ++ c :: cs = (done ++ [c]) ++ cs := by simp
      rw [happend]
      refine foldlM_addConstraint_running hindices cs (done ++ [c]) name₁ s₁ hs₁ hacyclic₁ ?_
      intro d hd n hn
      rcases List.mem_append.mp hd with hd | hd
      · exact hmapped₁ n (Or.inr (hmapped d hd n hn))
      · obtain rfl := List.mem_singleton.mp hd
        exact hmapped₁ n (Or.inl hn)

omit [DecidableEq I] in
/-- What holds between calls, read off the heap alone. -/
theorem Solves.repInvariant {constraints : List (SetConstraint N I)} {s : CubicSolver N I}
    (hs : Solves constraints name s) (hacyclic : Acyclic s)
    (hmapped : ∀ c ∈ constraints, ∀ n ∈ c.operands, (s.dagmapping n).isSome) :
    RepInvariant constraints s := by
  have hlive := fun x ↦ hs.wellFormed.inGraph_iff x
  refine ⟨fun c hc n hn ↦ ?_, fun a b ha hb ↦ ?_, fun a b ha hb ↦ ?_, fun a b ha hb ↦ ?_,
    hacyclic.acyclic, hacyclic.irreflexive, fun a b ha hb i hi ↦ ?_, fun a i ha hi ↦ ?_⟩
  · obtain ⟨x, hx⟩ := Option.isSome_iff_exists.mp (hmapped c hc n hn)
    exact ⟨x, hx, n, hx⟩
  · exact ⟨fun h ↦ (hs.wellFormed.supsets a b ((hlive a).mp ha) h).2.1,
      fun h ↦ (hs.wellFormed.subsets b a ((hlive b).mp hb) h).2⟩
  · exact (hlive b).mpr (hs.wellFormed.supsets a b ((hlive a).mp ha) hb).1
  · exact (hlive b).mpr (hs.wellFormed.subsets a b ((hlive a).mp ha) hb).1
  · exact (hs.clean a ((hlive a).mp ha)).2 b hb i hi
  · exact (hs.clean a ((hlive a).mp ha)).1 i hi

end Unchecked

/-- The calls that add constraints never fail the assertion, and once they have returned the
representation invariant holds, for every list of functions, every sequence of calls and every
iteration order. -/
theorem repInvariant_solveConstraints {N F : Type} [DecidableEq N] [DecidableEq F]
    (functions : List F) (iter : IterationOrder) (fuel : ℕ)
    (constraints : List (SetConstraint N {f // f ∈ functions})) :
    solveConstraintsUnchecked functions.attach iter fuel constraints =
      solveConstraints functions.attach iter fuel constraints ∧
    ∀ s, solveConstraints functions.attach iter fuel constraints = some s →
      RepInvariant constraints s := by
  have hacyclic : Acyclic (new N {f // f ∈ functions}) :=
    ⟨fun x h ↦ Finset.notMem_empty x h, fun x ⟨n, hn⟩ ↦ by cases hn⟩
  rcases isEmpty_or_nonempty N with hN | ⟨⟨n⟩⟩
  · -- without variables there are no constraints
    have hnil : constraints = [] := by
      rcases constraints with _ | ⟨c, -⟩
      · rfl
      · cases c with
        | elementof _ n | subseteq n _ | conditional _ n _ _ => exact (hN.false n).elim
    subst hnil
    refine ⟨rfl, fun s h ↦ ?_⟩
    obtain rfl := Option.some.inj h
    have hnone : ∀ x, ¬ InGraph (new N {f // f ∈ functions}) x := fun x ⟨n, _⟩ ↦ hN.false n
    exact ⟨by simp, fun a _ ha ↦ absurd ha (hnone a), fun a _ ha ↦ absurd ha (hnone a),
      fun a _ ha ↦ absurd ha (hnone a), fun a ha ↦ absurd ha (hnone a), hacyclic.irreflexive,
      fun a _ ha ↦ absurd ha (hnone a), fun a _ ha ↦ absurd ha (hnone a)⟩
  · obtain ⟨hsame, hend⟩ := foldlM_addConstraint_running iter
      (List.mem_attach functions) constraints [] (fun _ ↦ n) _ (solves_new _) hacyclic (by simp)
    refine ⟨hsame, fun s h ↦ ?_⟩
    obtain ⟨name, hs, hacyclic', hmapped⟩ := hend s h
    exact hs.repInvariant hacyclic' hmapped

/-- A conditional constraint closes a cycle of two variables, whose nodes are merged. -/
theorem repInvariant_solveConstraints_merged :
    RepInvariant [.conditional ⟨7, by decide⟩ 2 0 1, .subseteq 1 0, .elementof ⟨7, by decide⟩ 2]
      ((solveConstraints (N := ℕ) [7, 8].attach .creation 9
        [.conditional ⟨7, by decide⟩ 2 0 1, .subseteq 1 0, .elementof ⟨7, by decide⟩ 2]).get
          (by decide)) :=
  (repInvariant_solveConstraints (N := ℕ) [7, 8] .creation 9
    [.conditional ⟨7, by decide⟩ 2 0 1, .subseteq 1 0, .elementof ⟨7, by decide⟩ 2]).2 _
    (Option.some_get (by decide)).symm

end Sipc.CubicSolver
