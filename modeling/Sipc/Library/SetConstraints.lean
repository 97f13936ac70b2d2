import Mathlib.Data.Set.Basic

/-!
# Set constraints

The three kinds of constraint of a control-flow analysis, between sets of elements assigned to
variables: an element belongs to a variable, one variable is included in another, and an inclusion
that holds as soon as an element belongs to a third variable. Every system of such constraints has a
least solution, the intersection of all its solutions (`isSolution_least`, `least_le`).
-/

set_option autoImplicit false
set_option relaxedAutoImplicit false

namespace Sipc.Library

/-- A constraint on the sets of elements of `F` assigned to the variables of `N`. -/
inductive SetConstraint (N F : Type)
  | elementof (f : F) (n : N)
  | subseteq (a b : N)
  | conditional (f : F) (n a b : N)

namespace SetConstraint

variable {N F : Type}

/-- The variables a constraint speaks of. -/
def operands : SetConstraint N F → List N
  | elementof _ n => [n]
  | subseteq a b => [a, b]
  | conditional _ n a b => [n, a, b]

/-- The family `S` satisfies a constraint. -/
def Satisfies (S : N → F → Prop) : SetConstraint N F → Prop
  | elementof f n => S n f
  | subseteq a b => ∀ f, S a f → S b f
  | conditional f n a b => S n f → ∀ g, S a g → S b g

/-- The family `S` satisfies every constraint of the list. -/
def IsSolution (constraints : List (SetConstraint N F)) (S : N → F → Prop) : Prop :=
  ∀ c ∈ constraints, c.Satisfies S

/-- The intersection of all solutions. -/
def Least (constraints : List (SetConstraint N F)) (n : N) (f : F) : Prop :=
  ∀ S, IsSolution constraints S → S n f

theorem least_le {constraints : List (SetConstraint N F)} {S : N → F → Prop}
    (hS : IsSolution constraints S) {n : N} {f : F} (h : Least constraints n f) : S n f :=
  h S hS

theorem isSolution_least (constraints : List (SetConstraint N F)) :
    IsSolution constraints (Least constraints) := by
  intro c hc
  cases c with
  | elementof f n => exact fun S hS ↦ hS _ hc
  | subseteq a b => exact fun f hf S hS ↦ hS _ hc f (hf S hS)
  | conditional f n a b => exact fun hn g hg S hS ↦ hS _ hc (hn S hS) g (hg S hS)

/-- A solution that lies below all solutions is the least one. -/
theorem eq_least {constraints : List (SetConstraint N F)} {S : N → F → Prop}
    (hS : IsSolution constraints S)
    (hle : ∀ S', IsSolution constraints S' → ∀ n f, S n f → S' n f) (n : N) (f : F) :
    S n f ↔ Least constraints n f :=
  ⟨fun h S' hS' ↦ hle S' hS' n f h, least_le hS⟩

/-! ### Other elements -/

/-- The elements a constraint speaks of. -/
def elements : SetConstraint N F → List F
  | elementof f _ => [f]
  | subseteq _ _ => []
  | conditional f _ _ _ => [f]

def mapElements {G : Type} (φ : F → G) : SetConstraint N F → SetConstraint N G
  | elementof f n => elementof (φ f) n
  | subseteq a b => subseteq a b
  | conditional f n a b => conditional (φ f) n a b

/-- A constraint on elements of a list is one on the type of its members. -/
theorem exists_mapElements {l : List F} {c : SetConstraint N F} (h : ∀ f ∈ c.elements, f ∈ l) :
    ∃ c' : SetConstraint N {f // f ∈ l}, c'.mapElements Subtype.val = c := by
  cases c with
  | elementof f n => exact ⟨elementof ⟨f, h f List.mem_cons_self⟩ n, rfl⟩
  | subseteq a b => exact ⟨subseteq a b, rfl⟩
  | conditional f n a b => exact ⟨conditional ⟨f, h f List.mem_cons_self⟩ n a b, rfl⟩

end SetConstraint

end Sipc.Library
