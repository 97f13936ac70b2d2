import Mathlib.Data.List.Infix
import Mathlib.Data.List.Nodup
import Mathlib.Logic.Relation
import Mathlib.Order.Lattice.Nat

/-!
# Breadth-first search

A graph is given by the list of successors of each vertex. `found succ source i` lists the vertices
met, in the order in which they are met, once the first `i` of them have been visited: the list is
its own queue, of which the part from position `i` on is still to be visited.

A vertex is met exactly when it can be reached (`exists_mem_found_iff`), and vertices are met in the
order of their distance from the source: `Levels` is the invariant of the search, `levels_found`
carries it over a run, and `mem_found_of_dist_le` says that by the time a vertex is visited every
vertex that is not farther away has been met.
-/

set_option autoImplicit false
set_option relaxedAutoImplicit false

namespace Sipc.Library.BreadthFirst

variable {V : Type} (succ : V → List V) (source : V)

/-! ### The search -/

section Search

variable [DecidableEq V]

/-- Append the successors of a vertex that have not been met. -/
def meet (met : List V) (x : V) : List V :=
  met ++ (succ x).filter fun y ↦ y ∉ met

/-- The vertices met when the first `i` of them have been visited. -/
def found : ℕ → List V
  | 0 => [source]
  | i + 1 => (found i)[i]?.elim (found i) (meet succ (found i))

variable {succ source}

theorem mem_meet {met : List V} {x y : V} : y ∈ meet succ met x ↔ y ∈ met ∨ y ∈ succ x := by
  unfold meet
  rw [List.mem_append, List.mem_filter, decide_eq_true_iff]
  tauto

theorem found_succ_of_get {i : ℕ} {x : V} (hx : (found succ source i)[i]? = some x) :
    found succ source (i + 1) = meet succ (found succ source i) x := by
  rw [found, hx]
  rfl

theorem found_succ_of_length_le {i : ℕ} (hi : (found succ source i).length ≤ i) :
    found succ source (i + 1) = found succ source i := by
  rw [found, List.getElem?_eq_none hi]
  rfl

theorem prefix_found_succ (i : ℕ) : found succ source i <+: found succ source (i + 1) := by
  rcases hx : (found succ source i)[i]? with _ | x
  · rw [found_succ_of_length_le (List.getElem?_eq_none_iff.mp hx)]
  · rw [found_succ_of_get hx]
    exact List.prefix_append _ _

theorem prefix_found {i j : ℕ} (hij : i ≤ j) : found succ source i <+: found succ source j := by
  induction j, hij using Nat.le_induction with
  | base => exact List.prefix_refl _
  | succ j _ ih => exact ih.trans (prefix_found_succ j)

theorem found_subset {i j : ℕ} (hij : i ≤ j) : found succ source i ⊆ found succ source j :=
  (prefix_found hij).subset

theorem source_mem_found (i : ℕ) : source ∈ found succ source i :=
  found_subset (Nat.zero_le i) (List.mem_singleton_self source)

/-- Once every vertex met has been visited, the search meets nothing more. -/
theorem found_eq_of_length_le {i j : ℕ} (hi : (found succ source i).length ≤ i) (hij : i ≤ j) :
    found succ source j = found succ source i := by
  induction j, hij using Nat.le_induction with
  | base => rfl
  | succ j hij ih =>
    rw [found_succ_of_length_le, ih]
    rw [ih]
    exact hi.trans hij

theorem get_found {i j k : ℕ} {x : V} (hij : i ≤ j) (hx : (found succ source i)[k]? = some x) :
    (found succ source j)[k]? = some x := by
  obtain ⟨rest, hrest⟩ : found succ source i <+: found succ source j := prefix_found hij
  rw [← hrest, List.getElem?_append_left (List.getElem?_eq_some_iff.mp hx).1, hx]

theorem nodup_found (hsucc : ∀ x, (succ x).Nodup) (i : ℕ) : (found succ source i).Nodup := by
  induction i with
  | zero => exact List.nodup_singleton source
  | succ i ih =>
    rcases hx : (found succ source i)[i]? with _ | x
    · rw [found_succ_of_length_le (List.getElem?_eq_none_iff.mp hx)]
      exact ih
    · rw [found_succ_of_get hx]
      refine ih.append ((hsucc x).filter _) fun y hy hy' ↦ ?_
      exact of_decide_eq_true (List.mem_filter.mp hy').2 hy

end Search

/-! ### Paths and distances -/

/-- Some path of `n` edges leads from the source to the vertex. -/
def Steps : ℕ → V → Prop
  | 0, x => x = source
  | n + 1, x => ∃ y, Steps n y ∧ x ∈ succ y

/-- The number of edges of a shortest path from the source. -/
noncomputable def dist (x : V) : ℕ :=
  sInf {n | Steps succ source n x}

/-- A path leads from the source to the vertex. -/
def Reached (x : V) : Prop :=
  Relation.ReflTransGen (fun x y ↦ y ∈ succ x) source x

variable {succ source}

theorem reached_of_steps : ∀ {n : ℕ} {x : V}, Steps succ source n x → Reached succ source x
  | 0, _, h => h ▸ Relation.ReflTransGen.refl
  | _ + 1, _, ⟨_, hy, hxy⟩ => (reached_of_steps hy).tail hxy

theorem Reached.exists_steps {x : V} (h : Reached succ source x) : ∃ n, Steps succ source n x := by
  induction h with
  | refl => exact ⟨0, rfl⟩
  | tail _ hxy ih =>
    obtain ⟨n, hn⟩ := ih
    exact ⟨n + 1, _, hn, hxy⟩

theorem Reached.steps_dist {x : V} (h : Reached succ source x) :
    Steps succ source (dist succ source x) x :=
  Nat.sInf_mem h.exists_steps

theorem dist_le {n : ℕ} {x : V} (h : Steps succ source n x) : dist succ source x ≤ n :=
  Nat.sInf_le h

theorem dist_source : dist succ source source = 0 :=
  Nat.le_zero.mp (dist_le (n := 0) rfl)

theorem dist_le_succ {x y : V} (hx : Reached succ source x) (hxy : y ∈ succ x) :
    dist succ source y ≤ dist succ source x + 1 :=
  dist_le ⟨x, hx.steps_dist, hxy⟩

theorem Reached.eq_source_of_dist {x : V} (h : Reached succ source x)
    (hx : dist succ source x = 0) : x = source := by
  have hsteps := h.steps_dist
  rw [hx] at hsteps
  exact hsteps

/-! ### What is met can be reached, and what can be reached is met -/

variable [DecidableEq V]

theorem reached_of_mem_found : ∀ {i : ℕ} {x : V}, x ∈ found succ source i → Reached succ source x
  | 0, x, h => by
    rw [List.mem_singleton.mp h]
    exact Relation.ReflTransGen.refl
  | i + 1, x, h => by
    rcases hy : (found succ source i)[i]? with _ | y
    · rw [found_succ_of_length_le (List.getElem?_eq_none_iff.mp hy)] at h
      exact reached_of_mem_found h
    · rw [found_succ_of_get hy] at h
      rcases mem_meet.mp h with h | h
      · exact reached_of_mem_found h
      · exact (reached_of_mem_found (List.mem_of_getElem? hy)).tail h

/-- The successors of a vertex that has been visited have been met. -/
theorem mem_found_of_visited {i j : ℕ} {x y : V} (hji : j < i)
    (hx : (found succ source i)[j]? = some x) (hxy : y ∈ succ x) : y ∈ found succ source i := by
  have hj : (found succ source j)[j]? = some x := by
    rcases Nat.lt_or_ge j (found succ source j).length with hlt | hle
    · rcases hz : (found succ source j)[j]? with _ | z
      · exact absurd (List.getElem?_eq_none_iff.mp hz) (Nat.not_le.mpr hlt)
      · rw [← hx]
        exact (get_found hji.le hz).symm
    · rw [found_eq_of_length_le hle hji.le] at hx
      exact hx
  have hmem : y ∈ found succ source (j + 1) := by
    rw [found_succ_of_get hj]
    exact mem_meet.mpr (Or.inr hxy)
  exact found_subset hji hmem

/-- A vertex other than the source was met from one that had been met before. -/
theorem exists_mem_found_pred {x : V} (hx : x ≠ source) :
    ∀ {i : ℕ}, x ∈ found succ source i → ∃ y ∈ found succ source i, x ∈ succ y
  | 0, h => absurd (List.mem_singleton.mp h) hx
  | i + 1, h => by
    have hprev : x ∈ found succ source i → ∃ y ∈ found succ source (i + 1), x ∈ succ y := by
      intro h
      obtain ⟨y, hy, hxy⟩ := exists_mem_found_pred hx h
      exact ⟨y, found_subset i.le_succ hy, hxy⟩
    rcases hy : (found succ source i)[i]? with _ | y
    · rw [found_succ_of_length_le (List.getElem?_eq_none_iff.mp hy)] at h
      exact hprev h
    · rw [found_succ_of_get hy] at h
      rcases mem_meet.mp h with h | h
      · exact hprev h
      · exact ⟨y, found_subset i.le_succ (List.mem_of_getElem? hy), h⟩

theorem exists_mem_found_iff {x : V} : (∃ i, x ∈ found succ source i) ↔ Reached succ source x := by
  refine ⟨fun ⟨i, hi⟩ ↦ reached_of_mem_found hi, fun h ↦ ?_⟩
  induction h with
  | refl => exact ⟨0, source_mem_found 0⟩
  | tail _ hxy ih =>
    obtain ⟨i, hi⟩ := ih
    obtain ⟨k, hk⟩ := List.mem_iff_getElem?.mp hi
    have hlast : (found succ source (max i (k + 1)))[k]? = some _ := get_found (le_max_left _ _) hk
    exact ⟨max i (k + 1), mem_found_of_visited (Nat.lt_of_lt_of_le k.lt_succ_self
      (le_max_right _ _)) hlast hxy⟩

/-! ### Vertices are met in the order of their distance -/

/-- The invariant of the search: the vertices met are in the order of their distance, and none is
more than one edge farther away than the vertex to be visited next. -/
structure Levels [DecidableEq V] (succ : V → List V) (source : V) (i : ℕ) : Prop where
  ordered : (found succ source i).Pairwise fun x y ↦ dist succ source x ≤ dist succ source y
  window : ∀ x, (found succ source i)[i]? = some x → ∀ y ∈ found succ source i,
    dist succ source y ≤ dist succ source x + 1

theorem Levels.get_le {i j k : ℕ} {x y : V} (h : Levels succ source i) (hjk : j ≤ k)
    (hx : (found succ source i)[j]? = some x) (hy : (found succ source i)[k]? = some y) :
    dist succ source x ≤ dist succ source y := by
  obtain ⟨hj, rfl⟩ := List.getElem?_eq_some_iff.mp hx
  obtain ⟨hk, rfl⟩ := List.getElem?_eq_some_iff.mp hy
  rcases Nat.eq_or_lt_of_le hjk with rfl | hlt
  · exact le_rfl
  · exact List.pairwise_iff_getElem.mp h.ordered j k hj hk hlt

/-- A vertex not farther away than the one to be visited next has been met. -/
theorem Levels.mem_of_steps {i : ℕ} {x : V} (h : Levels succ source i)
    (hx : (found succ source i)[i]? = some x) :
    ∀ {n : ℕ} {y : V}, Steps succ source n y → n ≤ dist succ source x → y ∈ found succ source i
  | 0, y, hy, _ => by
    rw [show y = source from hy]
    exact source_mem_found i
  | n + 1, y, ⟨z, hz, hzy⟩, hn => by
    obtain ⟨k, hk⟩ := List.mem_iff_getElem?.mp (h.mem_of_steps hx hz (Nat.le_of_succ_le hn))
    -- the vertex before is nearer than the one to be visited next, so it has been visited
    have hki : k < i := by
      by_contra hle
      have := h.get_le (Nat.not_lt.mp hle) hx hk
      have := dist_le hz
      omega
    exact mem_found_of_visited hki hk hzy

/-- A vertex met from `x` is one edge farther away than `x`. -/
theorem Levels.dist_meet {i : ℕ} {x y : V} (h : Levels succ source i)
    (hx : (found succ source i)[i]? = some x) (hy : y ∉ found succ source i) (hxy : y ∈ succ x) :
    dist succ source y = dist succ source x + 1 := by
  have hreached := reached_of_mem_found (List.mem_of_getElem? hx)
  refine le_antisymm (dist_le_succ hreached hxy) (Nat.succ_le_of_lt (Nat.lt_of_not_le fun hle ↦ hy ?_))
  exact h.mem_of_steps hx (Reached.steps_dist (hreached.tail hxy)) hle

theorem levels_zero : Levels succ source 0 := by
  constructor
  · exact List.pairwise_singleton _ _
  · intro x _ y hy
    rw [List.mem_singleton.mp hy, dist_source]
    exact Nat.zero_le _

theorem Levels.next {i : ℕ} (h : Levels succ source i) : Levels succ source (i + 1) := by
  rcases hx : (found succ source i)[i]? with _ | x
  · have hlen := List.getElem?_eq_none_iff.mp hx
    constructor
    · rw [found_succ_of_length_le hlen]
      exact h.ordered
    · intro y hy
      rw [found_succ_of_length_le hlen, List.getElem?_eq_none (hlen.trans i.le_succ)] at hy
      cases hy
  · have hnew : ∀ y ∈ (BreadthFirst.meet succ (found succ source i) x), y ∈ found succ source i ∨
        dist succ source y = dist succ source x + 1 := by
      intro y hy
      by_cases hold : y ∈ found succ source i
      · exact Or.inl hold
      · exact Or.inr (h.dist_meet hx hold ((mem_meet.mp hy).resolve_left hold))
    have hbound : ∀ y ∈ found succ source (i + 1), dist succ source y ≤ dist succ source x + 1 := by
      intro y hy
      rw [found_succ_of_get hx] at hy
      rcases hnew y hy with hy | hy
      · exact h.window x hx y hy
      · exact hy.le
    have hordered : (found succ source (i + 1)).Pairwise
        fun x y ↦ dist succ source x ≤ dist succ source y := by
      rw [found_succ_of_get hx, meet, List.pairwise_append]
      have hfresh : ∀ y ∈ (succ x).filter fun y ↦ y ∉ found succ source i,
          dist succ source y = dist succ source x + 1 := by
        intro y hy
        obtain ⟨hxy, hy⟩ := List.mem_filter.mp hy
        exact h.dist_meet hx (of_decide_eq_true hy) hxy
      refine ⟨h.ordered, List.pairwise_of_forall_mem_list fun y hy z hz ↦ ?_, fun y hy z hz ↦ ?_⟩
      · rw [hfresh y hy, hfresh z hz]
      · rw [hfresh z hz]
        exact h.window x hx y hy
    refine ⟨hordered, fun z hz y hy ↦ (hbound y hy).trans (Nat.succ_le_succ ?_)⟩
    obtain ⟨hi, hxi⟩ := List.getElem?_eq_some_iff.mp (get_found i.le_succ hx)
    obtain ⟨hi', hzi⟩ := List.getElem?_eq_some_iff.mp hz
    rw [← hxi, ← hzi]
    exact List.pairwise_iff_getElem.mp hordered i (i + 1) hi hi' i.lt_succ_self

theorem levels_found (i : ℕ) : Levels succ source i := by
  induction i with
  | zero => exact levels_zero
  | succ i ih => exact ih.next

/-- By the time a vertex is visited, every vertex that is not farther away has been met. -/
theorem mem_found_of_dist_le {i : ℕ} {x y : V} (hx : (found succ source i)[i]? = some x)
    (hy : Reached succ source y) (hle : dist succ source y ≤ dist succ source x) :
    y ∈ found succ source i :=
  (levels_found i).mem_of_steps hx hy.steps_dist hle

end Sipc.Library.BreadthFirst
