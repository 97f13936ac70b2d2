import Mathlib.Data.Finset.Filter
import Mathlib.Data.Finset.Card
import Mathlib.Logic.Relation

/-!
# Vertices of a finite graph that reach no cycle

For an edge relation on a finite set of vertices, `ReachesCycle v` says that some path from `v` leads
to a vertex on a cycle. The vertices that reach no cycle form the part of the graph on which a
recursion along edges ends; `acyclic_induction` is the corresponding induction principle.
-/

set_option autoImplicit false
set_option relaxedAutoImplicit false

namespace Sipc.Library

variable {V : Type*} (edge : V → V → Prop)

/-- A path, possibly empty, leads from `v` to a vertex on a cycle. -/
def ReachesCycle (v : V) : Prop :=
  ∃ w, Relation.ReflTransGen edge v w ∧ Relation.TransGen edge w w

variable {edge}

theorem ReachesCycle.of_edge {v w : V} (h : edge v w) (hw : ReachesCycle edge w) :
    ReachesCycle edge v := by
  obtain ⟨u, hwu, hu⟩ := hw
  exact ⟨u, Relation.ReflTransGen.head h hwu, hu⟩

theorem ReachesCycle.of_cycle {v : V} (h : Relation.TransGen edge v v) : ReachesCycle edge v :=
  ⟨v, Relation.ReflTransGen.refl, h⟩

/-- A vertex that reaches a cycle has an edge to one that does. -/
theorem ReachesCycle.exists_edge {v : V} (h : ReachesCycle edge v) :
    ∃ w, edge v w ∧ ReachesCycle edge w := by
  obtain ⟨u, hvu, hu⟩ := h
  rcases Relation.ReflTransGen.cases_head hvu with rfl | ⟨w, hvw, hwu⟩
  · obtain ⟨w, hvw, hwv⟩ := Relation.TransGen.head'_iff.mp hu
    exact ⟨w, hvw, v, hwv, hu⟩
  · exact ⟨w, hvw, u, hwu, hu⟩

/-- Induction over the vertices that reach no cycle, for a graph with finitely many vertices: what
passes from the successors of a vertex to the vertex holds of all of them. -/
theorem acyclic_induction {W : Finset V} (hW : ∀ v w, edge v w → w ∈ W) {P : V → Prop}
    (hstep : ∀ v, ¬ ReachesCycle edge v → (∀ w, edge v w → P w) → P v) (v : V)
    (hv : ¬ ReachesCycle edge v) : P v := by
  classical
  -- the induction is on the number of vertices reachable from `v`
  suffices hall : ∀ n v, (W.filter fun w ↦ Relation.TransGen edge v w).card = n →
      ¬ ReachesCycle edge v → P v from hall _ v rfl hv
  intro n
  induction n using Nat.strong_induction_on with
  | _ n ih =>
    intro v hcard hv
    refine hstep v hv fun w hvw ↦ ?_
    have hw : ¬ ReachesCycle edge w := fun h ↦ hv (h.of_edge hvw)
    refine ih _ ?_ w rfl hw
    rw [← hcard]
    refine Finset.card_lt_card (Finset.ssubset_iff_subset_ne.mpr ⟨?_, ?_⟩)
    · intro u hu
      obtain ⟨huW, hwu⟩ := Finset.mem_filter.mp hu
      exact Finset.mem_filter.mpr ⟨huW, Relation.TransGen.head hvw hwu⟩
    · intro heq
      have hmem : w ∈ W.filter fun u ↦ Relation.TransGen edge v u :=
        Finset.mem_filter.mpr ⟨hW v w hvw, Relation.TransGen.single hvw⟩
      rw [← heq] at hmem
      exact hw (ReachesCycle.of_cycle (Finset.mem_filter.mp hmem).2)

end Sipc.Library
