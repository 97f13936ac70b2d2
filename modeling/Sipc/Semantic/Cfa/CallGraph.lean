import Sipc.Frontend.AST
import Sipc.Library.CallCycles

/-!
# Call graphs

`semantic/cfa/CallGraph`: the functions of a program, for each function the set of functions it may
call, and for each application the set of functions it may call. The sets are ordered by address; here
they are lists in that order.
-/

set_option autoImplicit false
set_option relaxedAutoImplicit false

namespace Sipc

open Library

/-- `CallGraph`. Every function that may be called is a vertex. -/
structure CallGraph (F : Type) where
  vertices : List F
  callGraph : F → List F
  mayCall : NodeId → List F
  nodup : vertices.Nodup
  callees_mem : ∀ f, ∀ c ∈ callGraph f, c ∈ vertices

namespace CallGraph

variable {F : Type} (cg : CallGraph F)

/-- `CallGraph::getVertices`. -/
def getVertices : List F :=
  cg.vertices

/-- `CallGraph::getCallees`; a function without an entry has no callees. -/
def getCallees (f : F) : List F :=
  cg.callGraph f

/-- `CallGraph::getCalledFuns`. -/
def getCalledFuns (app : NodeId) : List F :=
  cg.mayCall app

/-- The function `f` may directly call `c`. -/
def Calls (f c : F) : Prop :=
  c ∈ cg.getCallees f

/-- A call chain of length at least one leads from `f` to `g`. -/
def Reaches (f g : F) : Prop :=
  Relation.TransGen cg.Calls f g

/-- A call cycle is reachable from `f`. -/
def CallsCycle (f : F) : Prop :=
  ReachesCycle cg.Calls f

theorem reaches_iff (f g : F) :
    cg.Reaches f g ↔ ∃ c ∈ cg.getCallees f, c = g ∨ cg.Reaches c g := by
  unfold Reaches
  rw [Relation.TransGen.head'_iff]
  constructor
  · rintro ⟨c, hc, hcg⟩
    refine ⟨c, hc, ?_⟩
    rcases Relation.reflTransGen_iff_eq_or_transGen.mp hcg with rfl | hcg
    · exact Or.inl rfl
    · exact Or.inr hcg
  · rintro ⟨c, hc, rfl | hcg⟩
    · exact ⟨c, hc, Relation.ReflTransGen.refl⟩
    · exact ⟨c, hc, hcg.to_reflTransGen⟩

/-- A function reaches a cycle exactly when it is, or reaches, a function that reaches itself. -/
theorem callsCycle_iff (f : F) :
    cg.CallsCycle f ↔ ∃ r, cg.Reaches r r ∧ (f = r ∨ cg.Reaches f r) := by
  constructor
  · rintro ⟨r, hfr, hr⟩
    refine ⟨r, hr, ?_⟩
    rcases Relation.reflTransGen_iff_eq_or_transGen.mp hfr with h | h
    · exact Or.inl h.symm
    · exact Or.inr h
  · rintro ⟨r, hr, rfl | hfr⟩
    · exact ReachesCycle.of_cycle hr
    · exact ⟨r, hfr.to_reflTransGen, hr⟩

theorem CallsCycle.of_calls {cg : CallGraph F} {f c : F} (hc : c ∈ cg.getCallees f)
    (h : cg.CallsCycle c) : cg.CallsCycle f :=
  ReachesCycle.of_edge hc h

end CallGraph

end Sipc
