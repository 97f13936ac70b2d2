import Sipc.Library.BreadthFirst
import Sipc.Semantic.Cfa.CubicSolverInvariant

/-!
# Finding a path in the node graph

`CubicSolver::findPath` on any finite node graph. The first loop is a breadth-first search: after
each round the recorded distances are the distances of the nodes met so far
(`populateDistances_labels`), so the loop stops with the distances of `found m`, where `m` is the
first round, from the second on, after which the target has been met (`findDistances_of_meets`).

The second loop walks back from the target, but looks at one subset only: the first in address order
that has a distance. `FindsPath` says what the function is for. It holds exactly when that first
subset is one edge nearer to the source at every node of the walk (`findsPath_iff`); where it is not,
the loop stays at the node for ever.
-/

set_option autoImplicit false
set_option relaxedAutoImplicit false

namespace Sipc.CubicSolver

open Library Library.BreadthFirst Relation

variable {N I : Type}

/-! ### What the function is for -/

/-- A finite node graph: `supsets` and `subsets` are mutually inverse, and no node has an edge to
itself. -/
structure NodeGraph (V : Finset CubicId) (s : CubicSolver N I) : Prop where
  supsets : ∀ x ∈ V, (s.nodes x).supsets ⊆ V
  subsets : ∀ x ∈ V, (s.nodes x).subsets ⊆ V
  inverse : ∀ x ∈ V, ∀ y ∈ V, y ∈ (s.nodes x).supsets ↔ x ∈ (s.nodes y).subsets
  irreflexive : ∀ x ∈ V, x ∉ (s.nodes x).supsets

/-- A vector that leads from the target back to the source, each element a subset of the one
before. -/
structure PathBack (s : CubicSolver N I) (source target : CubicId) (path : List CubicId) : Prop where
  head : path.head? = some target
  last : path.getLast? = some source
  nodup : path.Nodup
  chain : path.IsChain fun x y ↦ y ∈ (s.nodes x).subsets

/-- `findPath` returns, with the empty vector exactly where the target cannot be reached, and with a
path back from the target otherwise. The model keeps the vector last element first. -/
def FindsPath (iter : IterationOrder) (s : CubicSolver N I) (source target : CubicId) : Prop :=
  ∃ fuel out, findPath iter fuel source target s = some out ∧
    (out = [] ↔ ¬ ReflTransGen (Edge s) source target) ∧
    (out ≠ [] → PathBack s source target out.reverse)

/-! ### The way back -/

section WayBack

variable (iter : IterationOrder) (s : CubicSolver N I) (source target : CubicId)

/-- The supersets of a node, in the order of a loop over them. -/
def successors (x : CubicId) : List CubicId :=
  iter.list (s.nodes x).supsets

/-- After visiting `m` nodes the target has been met, for the first time that the search looks: it
looks from the second node on. -/
def MeetsTarget (m : ℕ) : Prop :=
  IsLeast {m | 2 ≤ m ∧ target ∈ found (successors iter s) source m} m

/-- The first of the subsets of a node that has been met. -/
def firstMet (met : List CubicId) (x : CubicId) : Option CubicId :=
  (iter.list (s.nodes x).subsets).find? fun y ↦ y ∈ met

/-- The nodes on the way from the target back to the source through the first subset met. -/
inductive OnWayBack (met : List CubicId) : CubicId → Prop
  | target : OnWayBack met target
  | firstMet {x y : CubicId} :
    OnWayBack met x → x ≠ source → firstMet iter s met x = some y → OnWayBack met y

/-- On the way back from the target, the first subset met of every node is one edge nearer to the
source. -/
def NearerOnWayBack : Prop :=
  ∀ m, MeetsTarget iter s source target m →
    ∀ x, OnWayBack iter s source target (found (successors iter s) source m) x → x ≠ source →
      ∀ y, firstMet iter s (found (successors iter s) source m) x = some y →
        dist (successors iter s) source y + 1 = dist (successors iter s) source x

end WayBack

/-! ### The first loop is a breadth-first search -/

section Search

variable {iter : IterationOrder} {s : CubicSolver N I} {source target : CubicId}

theorem mem_successors {x y : CubicId} : y ∈ successors iter s x ↔ Edge s x y :=
  iter.mem_list _ _

theorem nodup_successors (x : CubicId) : (successors iter s x).Nodup :=
  iter.nodup _

theorem reached_successors_iff {x : CubicId} :
    BreadthFirst.Reached (successors iter s) source x ↔ ReflTransGen (Edge s) source x := by
  have hedge : (fun x y ↦ y ∈ successors iter s x) = Edge s :=
    funext fun x ↦ funext fun y ↦ propext mem_successors
  rw [BreadthFirst.Reached, hedge]

/-- One round over `l`: what had no distance gets that of `node` and one more. -/
theorem foldl_discover_eq (node : CubicId) :
    ∀ (l : List CubicId) (search : Search), l.Nodup → (search.1 node).isSome →
      l.foldl (discover node) search =
        (fun n ↦ if (search.1 n).isSome then search.1 n
          else if n ∈ l then some ((search.1 node).getD 0 + 1) else none,
        search.2 ++ l.filter fun n ↦ (search.1 n).isNone)
  | [], search, _, _ => by
    refine Prod.ext (funext fun n ↦ ?_) (List.append_nil _).symm
    rcases hn : search.1 n with _ | d <;> simp [hn]
  | n :: l, search, hl, hnode => by
    obtain ⟨hn, hl⟩ := List.nodup_cons.mp hl
    rw [List.foldl_cons, discover]
    split_ifs with hsome
    · rw [foldl_discover_eq node l search hl hnode]
      refine Prod.ext (funext fun x ↦ ?_) ?_
      · by_cases hx : x = n
        · simp [hx, hsome]
        · simp [hx]
      · simp [Option.isSome_iff_ne_none.mp hsome]
    · have hne : node ≠ n := fun h ↦ hsome (h ▸ hnode)
      have hnone : search.1 n = none := by simpa using hsome
      have hnode' : (Function.update search.1 n (some ((search.1 node).getD 0 + 1)) node).isSome := by
        rw [Function.update_of_ne hne]
        exact hnode
      rw [foldl_discover_eq node l _ hl hnode']
      refine Prod.ext (funext fun x ↦ ?_) ?_
      · by_cases hx : x = n
        · simp [hx, hnone]
        · simp [hx, Function.update_of_ne hne]
      · have hfilter : (l.filter fun x ↦ (Function.update search.1 n
            (some ((search.1 node).getD 0 + 1)) x).isNone) =
            l.filter fun x ↦ (search.1 x).isNone := by
          refine List.filter_congr fun x hx ↦ ?_
          have hxn : x ≠ n := fun h ↦ hn (h ▸ hx)
          rw [Function.update_of_ne hxn]
        rw [List.filter_cons, hnone, hfilter]
        simp

variable (iter s source) in
/-- The distances of the nodes met so far. -/
noncomputable def labels (i : ℕ) (n : CubicId) : Option ℕ :=
  if n ∈ found (successors iter s) source i then some (dist (successors iter s) source n) else none

theorem isSome_labels {i : ℕ} {n : CubicId} :
    (labels iter s source i n).isSome = true ↔ n ∈ found (successors iter s) source i := by
  unfold labels
  split_ifs with h <;> simp [h]

theorem labels_of_mem {i : ℕ} {n : CubicId} (h : n ∈ found (successors iter s) source i) :
    labels iter s source i n = some (dist (successors iter s) source n) :=
  if_pos h

theorem labels_of_notMem {i : ℕ} {n : CubicId} (h : n ∉ found (successors iter s) source i) :
    labels iter s source i n = none :=
  if_neg h

/-- Visiting the next node: the distances become those of the nodes met then, and the nodes that are
new are queued. -/
theorem populateDistances_labels {i : ℕ} {x : CubicId}
    (hx : (found (successors iter s) source i)[i]? = some x) (queue : List CubicId) :
    ∃ new, populateDistances iter s x (labels iter s source i, queue) =
        (labels iter s source (i + 1), queue ++ new) ∧
      found (successors iter s) source (i + 1) = found (successors iter s) source i ++ new := by
  have hmem := List.mem_of_getElem? hx
  refine ⟨(successors iter s x).filter fun y ↦ y ∉ found (successors iter s) source i, ?_,
    found_succ_of_get hx⟩
  have hround := foldl_discover_eq x (successors iter s x) (labels iter s source i, queue)
    (nodup_successors x) (isSome_labels.mpr hmem)
  refine hround.trans (Prod.ext (funext fun n ↦ ?_) ?_)
  · by_cases hn : n ∈ found (successors iter s) source i
    · have hn' : n ∈ found (successors iter s) source (i + 1) := found_subset i.le_succ hn
      simp [labels_of_mem hn, labels_of_mem hn']
    · by_cases hxn : n ∈ successors iter s x
      · have hn' : n ∈ found (successors iter s) source (i + 1) := by
          rw [found_succ_of_get hx]
          exact mem_meet.mpr (Or.inr hxn)
        simp [labels_of_notMem hn, labels_of_mem hn', labels_of_mem hmem, hxn,
          (levels_found i).dist_meet hx hn hxn]
      · have hn' : n ∉ found (successors iter s) source (i + 1) := by
          rw [found_succ_of_get hx, mem_meet]
          tauto
        simp [labels_of_notMem hn, labels_of_notMem hn', hxn]
  · refine congrArg (queue ++ ·) (List.filter_congr fun n _ ↦ ?_)
    rw [Bool.eq_iff_iff, decide_eq_true_iff, ← @isSome_labels _ _ iter s]
    simp
/-- The head of the queue is the node to be visited next. -/
theorem get_of_drop {i : ℕ} {x : CubicId} {met rest : List CubicId} (h : met.drop i = x :: rest) :
    met[i]? = some x := by
  rw [← List.head?_drop, h]
  rfl

/-- A round of the loop, where the queue is not empty. -/
theorem findDistances_round {i : ℕ} {x : CubicId} {rest : List CubicId} (fuel : ℕ)
    (hqueue : (found (successors iter s) source i).drop i = x :: rest) :
    findDistances iter s target (fuel + 1)
        (labels iter s source i, (found (successors iter s) source i).drop i) =
      if target ∈ found (successors iter s) source (i + 1) then
        some (labels iter s source (i + 1))
      else findDistances iter s target fuel (labels iter s source (i + 1),
        (found (successors iter s) source (i + 1)).drop (i + 1)) := by
  obtain ⟨new, hround, hnew⟩ := populateDistances_labels (get_of_drop hqueue) (x :: rest)
  have hdrop : (found (successors iter s) source (i + 1)).drop (i + 1) = rest ++ new := by
    have hle : i ≤ (found (successors iter s) source i).length := by
      by_contra hlt
      rw [List.drop_eq_nil_of_le (Nat.le_of_not_le hlt)] at hqueue
      cases hqueue
    rw [hnew, ← List.drop_drop, List.drop_append_of_le_length hle, hqueue]
    rfl
  rw [hqueue, findDistances]
  simp only [hround, isSome_labels, hdrop, List.cons_append, List.tail_cons]

/-- The loop stops with the distances of the first round after which the target has been met. -/
theorem findDistances_of_meets {m : ℕ} (hm : target ∈ found (successors iter s) source m) :
    ∀ (n i fuel : ℕ), i + n = m → 0 < i → n < fuel →
      (∀ j, i < j → target ∈ found (successors iter s) source j → m ≤ j) →
      i < m → findDistances iter s target fuel
        (labels iter s source i, (found (successors iter s) source i).drop i) =
          some (labels iter s source m)
  | 0, i, fuel, hi, _, _, _, hlt => absurd hlt (by omega)
  | n + 1, i, 0, _, _, hfuel, _, _ => absurd hfuel (by omega)
  | n + 1, i, fuel + 1, hi, hpos, hfuel, hleast, hlt => by
    rcases hqueue : (found (successors iter s) source i).drop i with _ | ⟨x, rest⟩
    · -- nothing is left to visit, so the later rounds meet nothing more
      have hlen := List.drop_eq_nil_iff.mp hqueue
      have hsame := found_eq_of_length_le hlen hlt.le
      have hlabels : labels iter s source m = labels iter s source i := by
        funext n
        unfold labels
        rw [hsame]
      rw [findDistances, hlabels]
    · rw [← hqueue, findDistances_round fuel hqueue]
      split_ifs with htarget
      · have hle := hleast (i + 1) i.lt_succ_self htarget
        rw [show m = i + 1 by omega]
      · have hne : i + 1 ≠ m := fun h ↦ htarget (h ▸ hm)
        exact findDistances_of_meets hm n (i + 1) fuel (by omega) i.succ_pos (by omega)
          (fun j hj ↦ hleast j (by omega)) (by omega)

/-- Where the target is never met, the loop ends when every node met has been visited. -/
theorem findDistances_of_not_meets {c : ℕ}
    (hnot : ∀ j, target ∉ found (successors iter s) source j)
    (hc : ∀ j, (found (successors iter s) source j).length ≤ c) :
    ∀ (fuel i : ℕ), c < fuel + i → ∃ j, findDistances iter s target (fuel + 1)
      (labels iter s source i, (found (successors iter s) source i).drop i) =
        some (labels iter s source j)
  | 0, i, hfuel => by
    have hlen : (found (successors iter s) source i).length ≤ i :=
      (hc i).trans (Nat.le_of_lt (by omega))
    refine ⟨i, ?_⟩
    rw [List.drop_eq_nil_of_le hlen, findDistances]
  | fuel + 1, i, hfuel => by
    rcases hqueue : (found (successors iter s) source i).drop i with _ | ⟨x, rest⟩
    · exact ⟨i, rfl⟩
    · rw [← hqueue, findDistances_round (fuel + 1) hqueue, if_neg (hnot _)]
      exact findDistances_of_not_meets hnot hc fuel (i + 1) (by omega)

/-- The round before the loop. -/
theorem populateDistances_source :
    populateDistances iter s source (Function.update (fun _ ↦ none) source (some 0), []) =
      (labels iter s source 1, (found (successors iter s) source 1).drop 1) := by
  have hstart : Function.update (fun _ ↦ none) source (some 0) = labels iter s source 0 := by
    funext n
    by_cases hn : n = source
    · rw [hn, labels_of_mem (source_mem_found 0), dist_source, Function.update_self]
    · rw [labels_of_notMem (fun h ↦ hn (List.mem_singleton.mp h)), Function.update_of_ne hn]
  have hget : (found (successors iter s) source 0)[0]? = some source := rfl
  obtain ⟨new, hround, hnew⟩ := populateDistances_labels hget []
  rw [hstart, hround, hnew]
  rfl

/-- With more fuel the loop returns the same. -/
theorem findDistances_mono {distances : CubicId → Option ℕ} :
    ∀ (fuel k : ℕ) (search : Search), findDistances iter s target fuel search = some distances →
      findDistances iter s target (fuel + k) search = some distances
  | 0, _, _, h => by cases h
  | fuel + 1, k, (found, []), h => by
    rw [Nat.succ_add]
    exact h
  | fuel + 1, k, (found, curr :: rest), h => by
    rw [findDistances] at h
    rw [Nat.succ_add, findDistances]
    simp only at h ⊢
    split_ifs at h ⊢ with htarget
    · exact h
    · exact findDistances_mono fuel k _ h

end Search

/-! ### The second loop -/

section Back

variable {iter : IterationOrder} {s : CubicSolver N I} {source target : CubicId}

theorem mem_of_firstMet {met : List CubicId} {x y : CubicId} (h : firstMet iter s met x = some y) :
    y ∈ met := by
  unfold firstMet at h
  have hy := List.find?_some h
  exact of_decide_eq_true hy

theorem stepBack_labels {m : ℕ} {x y : CubicId} (hx : x ∈ found (successors iter s) source m)
    (hy : firstMet iter s (found (successors iter s) source m) x = some y) :
    stepBack iter s (labels iter s source m) x =
      if dist (successors iter s) source y + 1 = dist (successors iter s) source x then y
      else x := by
  have hfirst : ((iter.list (s.nodes x).subsets).find? fun n ↦
      (labels iter s source m n).isSome) = some y := by
    rw [← hy, firstMet]
    congr 1
    funext n
    rw [Bool.eq_iff_iff, isSome_labels, decide_eq_true_iff]
  have hmem := mem_of_firstMet hy
  unfold stepBack
  simp only [hfirst, labels_of_mem hmem, labels_of_mem hx, Option.getD_some]

theorem OnWayBack.mem_found {m : ℕ} (htarget : target ∈ found (successors iter s) source m)
    {x : CubicId}
    (h : OnWayBack iter s source target (found (successors iter s) source m) x) :
    x ∈ found (successors iter s) source m := by
  induction h with
  | target => exact htarget
  | firstMet _ _ hy _ => exact mem_of_firstMet hy

theorem NodeGraph.mem_found {V : Finset CubicId} (hV : NodeGraph V s) (hsource : source ∈ V)
    {m : ℕ} {x : CubicId} (hx : x ∈ found (successors iter s) source m) : x ∈ V := by
  have hreach := reached_successors_iff.mp (reached_of_mem_found hx)
  clear hx
  induction hreach with
  | refl => exact hsource
  | tail _ hyz ih => exact hV.supsets _ ih hyz

/-- A node met, other than the source, has a subset that has been met. -/
theorem exists_firstMet {V : Finset CubicId} (hV : NodeGraph V s) (hsource : source ∈ V) {m : ℕ}
    {x : CubicId} (hx : x ∈ found (successors iter s) source m) (hne : x ≠ source) :
    ∃ y, firstMet iter s (found (successors iter s) source m) x = some y := by
  obtain ⟨y, hy, hxy⟩ := exists_mem_found_pred hne hx
  have hsub : y ∈ iter.list (s.nodes x).subsets :=
    (iter.mem_list _ _).mpr ((hV.inverse y (hV.mem_found hsource hy) x
      (hV.mem_found hsource hx)).mp (mem_successors.mp hxy))
  rw [← Option.isSome_iff_exists, firstMet, List.find?_isSome]
  exact ⟨y, hsub, decide_eq_true hy⟩

/-- While the first subset met is nearer, the loop comes to the source. -/
theorem exists_backtrack {V : Finset CubicId} (hV : NodeGraph V s) (hsource : source ∈ V) {m : ℕ}
    (hm : MeetsTarget iter s source target m) (hnear : NearerOnWayBack iter s source target) :
    ∀ (fuel : ℕ) (x : CubicId) (out : List CubicId),
      OnWayBack iter s source target (found (successors iter s) source m) x →
      dist (successors iter s) source x < fuel →
      ∃ path, backtrack iter s (labels iter s source m) source fuel x out = some path
  | 0, _, _, _, h => absurd h (Nat.not_lt_zero _)
  | fuel + 1, x, out, hx, hfuel => by
    unfold backtrack
    split_ifs with hsrc
    · exact ⟨out, rfl⟩
    · have hmet := hx.mem_found hm.1.2
      obtain ⟨y, hy⟩ := exists_firstMet hV hsource hmet hsrc
      have hdist := hnear m hm x hx hsrc y hy
      simp only [stepBack_labels hmet hy, if_pos hdist]
      exact exists_backtrack hV hsource hm hnear fuel y _ (hx.firstMet hsrc hy) (by omega)

/-- If the loop ends, it went through the nodes on the way back, each time to a nearer one. -/
theorem exists_backtrack_of_onWayBack {m fuel : ℕ} {path : List CubicId}
    (htarget : target ∈ found (successors iter s) source m)
    (h : backtrack iter s (labels iter s source m) source fuel target [target] = some path)
    {x : CubicId}
    (hx : OnWayBack iter s source target (found (successors iter s) source m) x) :
    ∃ fuel out, backtrack iter s (labels iter s source m) source fuel x out = some path := by
  induction hx with
  | target => exact ⟨fuel, _, h⟩
  | @firstMet x y hx hne hy ih =>
    obtain ⟨fuel, out, hback⟩ := ih
    have hstep := stepBack_labels (hx.mem_found htarget) hy
    rcases fuel with _ | fuel
    · cases hback
    · split_ifs at hstep with hdist
      · rw [backtrack, if_neg hne, hstep] at hback
        exact ⟨fuel, _, hback⟩
      · rw [backtrack_eq_none iter s _ hne hstep] at hback
        cases hback

end Back

/-! ### When a path is found -/

section FindsPath

variable {iter : IterationOrder} {s : CubicSolver N I} {source target : CubicId}

/-- What `findPath` returns once the first loop has ended. -/
theorem findPath_of_findDistances {fuel m : ℕ}
    (h : findDistances iter s target fuel
      (labels iter s source 1, (found (successors iter s) source 1).drop 1) =
        some (labels iter s source m)) :
    findPath iter fuel source target s =
      if target ∈ found (successors iter s) source m then
        backtrack iter s (labels iter s source m) source fuel target [target]
      else some [] := by
  unfold findPath
  simp only [populateDistances_source, h]
  by_cases hm : target ∈ found (successors iter s) source m
  · rw [if_pos hm, labels_of_mem hm]
    rfl
  · rw [if_neg hm, labels_of_notMem hm]
    rfl

/-- The first loop of `findPath`, where the target is met. -/
theorem findDistances_of_meetsTarget {m : ℕ} (hm : MeetsTarget iter s source target m)
    {fuel : ℕ} (hfuel : m ≤ fuel) :
    findDistances iter s target fuel
      (labels iter s source 1, (found (successors iter s) source 1).drop 1) =
        some (labels iter s source m) := by
  have htwo := hm.1.1
  exact findDistances_of_meets hm.1.2 (m - 1) 1 fuel (by omega) Nat.one_pos (by omega)
    (fun j hj htarget ↦ hm.2 ⟨hj, htarget⟩) (by omega)

/-- If `findPath` returns, its second loop ended on the distances of the search. -/
theorem backtrack_of_findPath {m fuel : ℕ} {out : List CubicId}
    (hm : MeetsTarget iter s source target m)
    (h : findPath iter fuel source target s = some out) :
    backtrack iter s (labels iter s source m) source fuel target [target] = some out := by
  have hdistances : findDistances iter s target fuel
      (labels iter s source 1, (found (successors iter s) source 1).drop 1) =
        some (labels iter s source m) := by
    unfold findPath at h
    simp only [populateDistances_source] at h
    rcases hfound : findDistances iter s target fuel
      (labels iter s source 1, (found (successors iter s) source 1).drop 1) with _ | distances
    · rw [hfound] at h
      cases h
    · have hmore := findDistances_mono fuel m _ hfound
      rw [findDistances_of_meetsTarget hm (Nat.le_add_left m fuel)] at hmore
      exact hmore.symm
  rw [findPath_of_findDistances hdistances, if_pos hm.1.2] at h
  exact h

theorem exists_meetsTarget (h : ReflTransGen (Edge s) source target) :
    ∃ m, MeetsTarget iter s source target m := by
  obtain ⟨i, hi⟩ := exists_mem_found_iff.mpr ((@reached_successors_iff _ _ iter s source target).mpr h)
  have hmem : max 2 i ∈ {m | 2 ≤ m ∧ target ∈ found (successors iter s) source m} :=
    ⟨le_max_left _ _, found_subset (le_max_right _ _) hi⟩
  exact ⟨_, Nat.sInf_mem ⟨_, hmem⟩, fun j hj ↦ Nat.sInf_le hj⟩

/-- Where the target cannot be reached, `findPath` returns the empty vector. -/
theorem findPath_of_not_reached {V : Finset CubicId} (hV : NodeGraph V s) (hsource : source ∈ V)
    (h : ¬ ReflTransGen (Edge s) source target) :
    ∃ fuel, findPath iter fuel source target s = some [] := by
  have hnot : ∀ j, target ∉ found (successors iter s) source j := fun j hj ↦
    h (reached_successors_iff.mp (reached_of_mem_found hj))
  have hlength : ∀ j, (found (successors iter s) source j).length ≤ V.card := by
    intro j
    rw [← List.toFinset_card_of_nodup (nodup_found nodup_successors j)]
    exact Finset.card_le_card fun x hx ↦ hV.mem_found hsource (List.mem_toFinset.mp hx)
  obtain ⟨j, hj⟩ := findDistances_of_not_meets hnot hlength V.card 1 (Nat.lt_succ_self _)
  exact ⟨V.card + 1, by rw [findPath_of_findDistances hj, if_neg (hnot j)]⟩

/-- A vector that `findPath` returns is a path back from the target. -/
theorem pathBack_of_findPath {fuel : ℕ} {path : List CubicId}
    (h : findPath iter fuel source target s = some path) (hne : path ≠ []) :
    PathBack s source target path.reverse := by
  obtain ⟨⟨rest, rfl⟩, hchain, hnodup, hlast⟩ := findPath_spec h hne
  constructor
  · rw [List.head?_reverse]
    exact hlast
  · rw [List.getLast?_reverse]
    rfl
  · exact List.nodup_reverse.mpr hnodup
  · exact List.isChain_reverse.mpr hchain

/-- `findPath` does what it is for exactly when on the way back from the target the first subset met
is always nearer to the source. -/
theorem findsPath_iff {V : Finset CubicId} (hV : NodeGraph V s) (hsource : source ∈ V) :
    FindsPath iter s source target ↔ NearerOnWayBack iter s source target := by
  constructor
  · rintro ⟨fuel, out, hout, -, -⟩ m hm x hx hsrc y hy
    have hmet := hx.mem_found hm.1.2
    obtain ⟨fuel', out', hback⟩ :=
      exists_backtrack_of_onWayBack hm.1.2 (backtrack_of_findPath hm hout) hx
    by_contra hfar
    have hstuck := stepBack_labels hmet hy
    rw [if_neg hfar] at hstuck
    rw [backtrack_eq_none iter s _ hsrc hstuck] at hback
    cases hback
  · intro hnear
    by_cases hreach : ReflTransGen (Edge s) source target
    · obtain ⟨m, hm⟩ : ∃ m, MeetsTarget iter s source target m := exists_meetsTarget hreach
      set fuel := max m (dist (successors iter s) source target + 1)
      have hfound := findPath_of_findDistances
        (findDistances_of_meetsTarget hm (le_max_left m _ : m ≤ fuel))
      rw [if_pos hm.1.2] at hfound
      obtain ⟨path, hpath⟩ := exists_backtrack hV hsource hm hnear fuel target [target]
        OnWayBack.target (le_max_right m _)
      have hcons : path ≠ [] := by
        obtain ⟨⟨rest, hrest⟩, -⟩ := backtrack_spec iter s _ fuel target [] path hpath
          (List.IsChain.singleton target)
        rw [hrest]
        exact List.cons_ne_nil _ _
      rw [hpath] at hfound
      exact ⟨fuel, path, hfound, iff_of_false hcons (not_not.mpr hreach),
        pathBack_of_findPath hfound⟩
    · obtain ⟨fuel, hfuel⟩ : ∃ fuel, findPath iter fuel source target s = some [] :=
        findPath_of_not_reached hV hsource hreach
      exact ⟨fuel, [], hfuel, iff_of_true rfl hreach, fun h ↦ absurd rfl h⟩

end FindsPath

/-- The node graph with the given edges. -/
def ofEdges (edges : List (CubicId × CubicId)) : CubicSolver Unit Unit where
  nodes := fun x ↦
    { CubicSolverNode.new Unit Unit with
      supsets := ((edges.filter fun e ↦ e.1 = x).map Prod.snd).toFinset
      subsets := ((edges.filter fun e ↦ e.2 = x).map Prod.fst).toFinset }
  created := 0
  dagmapping := fun _ ↦ none

theorem nearerOnWayBack_chain :
    NearerOnWayBack IterationOrder.creation (ofEdges [(0, 1), (1, 2), (2, 0)]) 0 2 := by
  have hgraph : NodeGraph {0, 1, 2} (ofEdges [(0, 1), (1, 2), (2, 0)]) := by
    constructor <;> decide
  have hreach : ReflTransGen (Edge (ofEdges [(0, 1), (1, 2), (2, 0)])) 0 2 :=
    (ReflTransGen.single (by decide : 1 ∈ ((ofEdges [(0, 1), (1, 2), (2, 0)]).nodes 0).supsets)).tail
      (by decide : 2 ∈ ((ofEdges [(0, 1), (1, 2), (2, 0)]).nodes 1).supsets)
  refine (findsPath_iff hgraph (by decide)).mp ⟨5, [0, 1, 2], by decide, ?_, fun _ ↦ ?_⟩
  · exact iff_of_false (by decide) (not_not.mpr hreach)
  · constructor <;> decide

/-- The target `1` is met together with the node `0`, which comes first among its subsets. -/
theorem not_findsPath_detour :
    NodeGraph {0, 1, 2} (ofEdges [(0, 1), (2, 0), (2, 1), (1, 2)]) ∧
      ¬ FindsPath IterationOrder.creation (ofEdges [(0, 1), (2, 0), (2, 1), (1, 2)]) 2 1 := by
  refine ⟨by constructor <;> decide, ?_⟩
  rintro ⟨fuel, out, h, -⟩
  rcases fuel with _ | fuel
  · cases h
  · have hback : ∃ distances, stepBack IterationOrder.creation
        (ofEdges [(0, 1), (2, 0), (2, 1), (1, 2)]) distances 1 = 1 ∧
        backtrack IterationOrder.creation (ofEdges [(0, 1), (2, 0), (2, 1), (1, 2)]) distances 2
          (fuel + 1) 1 [1] = some out := ⟨_, by decide, h⟩
    obtain ⟨distances, hstuck, hback⟩ := hback
    rw [backtrack_eq_none _ _ distances (by decide) hstuck] at hback
    cases hback

end Sipc.CubicSolver
