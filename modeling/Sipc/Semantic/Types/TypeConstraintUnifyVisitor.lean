import Sipc.Semantic.Types.TypeConstraintVisitor
import Sipc.Semantic.Types.UnifierCorrectness

/-!
# Unification on the fly

`TypeConstraintUnifyVisitor` hands every constraint to `unify` as it is generated, on a unifier that is
empty at the start. `TypeConstraintCollectVisitor` collects the constraints first, and the unifier is
seeded with their terms before it solves them. The terms that are inserted early are classes of their
own, so a step of one of the runs is a step of the other, with the same representatives
(`unify_congr`), and the two agree (`TypeConstraintUnifyVisitor.agrees_with_collect`).
-/

set_option autoImplicit false
set_option relaxedAutoImplicit false

namespace Sipc

open Library

/-! ### The visitor -/

namespace TypeConstraintUnifyVisitor

variable (fuel : ℕ) (st : SymbolTable)

/-- `ConstraintUnifier::handle`. -/
def handle (c : TypeConstraint) (unionFind : TypeForest) :
    Option (Except UnificationError TypeForest) :=
  unify fuel c.lhs c.rhs unionFind

/-- The calls of `handle` in one call of the visitor, until one of them throws. -/
def handleEach : List TypeConstraint → TypeForest → Option (Except UnificationError TypeForest)
  | [], unionFind => some (.ok unionFind)
  | c :: cs, unionFind =>
    match handle fuel c unionFind with
    | some (.ok unionFind') => handleEach cs unionFind'
    | r => r

/-- The calls of the visitor in a function, until one of them throws. -/
def visitEach (scope : NodeId) :
    List VisitEvent → TypeForest → Option (Except UnificationError TypeForest)
  | [], unionFind => some (.ok unionFind)
  | ev :: evs, unionFind =>
    match handleEach fuel (TypeConstraintVisitor.step st scope ev) unionFind with
    | some (.ok unionFind') => visitEach scope evs unionFind'
    | r => r

/-- The functions of a program, until a call of the visitor throws. -/
def visitFunctions :
    List ASTFunction → TypeForest → Option (Except UnificationError TypeForest)
  | [], unionFind => some (.ok unionFind)
  | f :: fs, unionFind =>
    match visitEach fuel st f.decl.node f.accept unionFind with
    | some (.ok unionFind') => visitFunctions fs unionFind'
    | r => r

/-- `accept` of a program with the visitor. -/
def accept (p : ASTProgram) : Option (Except UnificationError TypeForest) :=
  visitFunctions fuel st p.functions Unifier.empty.unionFind

end TypeConstraintUnifyVisitor

/-- `TypeConstraintCollectVisitor`, and then a unifier that is seeded with the constraints and solves
them. -/
def collectAndSolve (st : SymbolTable) (p : ASTProgram) : Except UnificationError Unifier :=
  (Unifier.empty.add (p.typeConstraints st)).solve

/-! ### The constraints one by one -/

section Sequence

variable {f : TipType → TipType → TypeForest → Option (Except UnificationError TypeForest)}

theorem unifyEach_append (ps qs : List (TipType × TipType)) (U : TypeForest) :
    unifyEach f (ps ++ qs) U =
      match unifyEach f ps U with
      | some (.ok U') => unifyEach f qs U'
      | r => r := by
  induction ps generalizing U with
  | nil => rfl
  | cons p ps ih =>
    rw [List.cons_append, unifyEach, unifyEach]
    cases hp : f p.1 p.2 U with
    | none => rfl
    | some r =>
      cases r with
      | error e => rfl
      | ok U' => exact ih U'

end Sequence

namespace TypeConstraintUnifyVisitor

variable {fuel : ℕ} {st : SymbolTable}

theorem handleEach_eq (cs : List TypeConstraint) (U : TypeForest) :
    handleEach fuel cs U = unifyEach (unify fuel) (cs.map TypeConstraint.pair) U := by
  induction cs generalizing U with
  | nil => rfl
  | cons c cs ih =>
    rw [handleEach, List.map_cons, unifyEach, handle]
    simp only [ih]
    rfl

theorem visitEach_eq (scope : NodeId) (evs : List VisitEvent) (U : TypeForest) :
    visitEach fuel st scope evs U =
      unifyEach (unify fuel)
        ((evs.flatMap (TypeConstraintVisitor.step st scope)).map TypeConstraint.pair) U := by
  induction evs generalizing U with
  | nil => rfl
  | cons ev evs ih =>
    rw [visitEach, List.flatMap_cons, List.map_append, unifyEach_append, handleEach_eq]
    simp only [ih]

/-- The visitor unifies the constraints that are collected, in the same order. -/
theorem accept_eq (p : ASTProgram) :
    accept fuel st p = unifyEach (unify fuel) ((p.typeConstraints st).map TypeConstraint.pair)
      Unifier.empty.unionFind := by
  have h : ∀ (fs : List ASTFunction) (U : TypeForest), visitFunctions fuel st fs U =
      unifyEach (unify fuel)
        ((fs.flatMap (ASTFunction.typeConstraints st)).map TypeConstraint.pair) U := by
    intro fs
    induction fs with
    | nil => exact fun _ ↦ rfl
    | cons f fs ih =>
      intro U
      rw [visitFunctions, List.flatMap_cons, List.map_append, unifyEach_append, visitEach_eq]
      simp only [ih]
      rfl
  exact h p.functions Unifier.empty.unionFind

end TypeConstraintUnifyVisitor

/-! ### Runs from structures with the same classes -/

/-- Both computations run out of fuel, or both throw, or both end with the same representatives. -/
def SameOutcome : Option (Except UnificationError TypeForest) →
    Option (Except UnificationError TypeForest) → Prop
  | none, none => True
  | some (.error _), some (.error _) => True
  | some (.ok U), some (.ok V) => U.rep = V.rep
  | _, _ => False

theorem unifyEach_congr
    {f : TipType → TipType → TypeForest → Option (Except UnificationError TypeForest)}
    (h : ∀ s t U V, U.rep = V.rep → SameOutcome (f s t U) (f s t V)) :
    ∀ (ps : List (TipType × TipType)) (U V : TypeForest), U.rep = V.rep →
      SameOutcome (unifyEach f ps U) (unifyEach f ps V)
  | [], _, _, hrep => hrep
  | p :: ps, U, V, hrep => by
    have hhead := h p.1 p.2 U V hrep
    unfold unifyEach
    generalize f p.1 p.2 U = r at hhead
    generalize f p.1 p.2 V = r' at hhead
    rcases r with _ | _ | U' <;> rcases r' with _ | _ | V' <;>
      first
        | exact hhead.elim
        | trivial
        | exact unifyEach_congr h ps U' V' hhead

/-- `unify` reads of the structure the representatives only. -/
theorem unify_congr : ∀ (fuel : ℕ) (s t : TipType) (U V : TypeForest), U.rep = V.rep →
    SameOutcome (unify fuel s t U) (unify fuel s t V) := by
  intro fuel
  induction fuel with
  | zero => exact fun _ _ _ _ _ ↦ trivial
  | succ fuel ih =>
    intro s t U V hrep
    have hfound : ((U.find s).2.find t).2.rep = ((V.find s).2.find t).2.rep := by
      rw [UnionFind.rep_find, UnionFind.rep_find, UnionFind.rep_find, UnionFind.rep_find, hrep]
    have hunion : ∀ a b, (((U.find s).2.find t).2.quickUnion a b).rep =
        (((V.find s).2.find t).2.quickUnion a b).rep := by
      intro a b
      funext c
      rw [UnionFind.rep_quickUnion, UnionFind.rep_quickUnion, hfound]
    simp only [unify, UnionFind.find_fst, UnionFind.rep_find, hrep]
    split_ifs
    · exact hfound
    · exact hunion _ _
    · exact hunion _ _
    · exact hunion _ _
    · trivial
    · exact unifyEach_congr ih _ _ _ (hunion _ _)
    · trivial

/-! ### The two visitors -/

/-- Unifying on the fly ends. It throws if and only if solving the collected constraints does, and if
neither throws, the same terms are connected. It holds of every symbol table, that of the program
included. -/
theorem TypeConstraintUnifyVisitor.agrees_with_collect (p : ASTProgram) (st : SymbolTable) :
    ∃ bound r, (∀ fuel, bound ≤ fuel → accept fuel st p = some r) ∧
      ((∃ e, r = .error e) ↔ ∃ e, collectAndSolve st p = .error e) ∧
      ∀ U u, r = .ok U → collectAndSolve st p = .ok u →
        ∀ s t, (U.connected s t).1 = (u.unionFind.connected s t).1 := by
  set u₀ := Unifier.empty.add (p.typeConstraints st) with hu₀
  obtain ⟨r', hr', hsolve⟩ := u₀.solve_cases
  have hconstraints : u₀.constraints = p.typeConstraints st := List.nil_append _
  have hsame : SameOutcome (accept u₀.fuel st p) (some r') := by
    rw [accept_eq, ← hr', Unifier.solveWith, hconstraints]
    exact unifyEach_congr (unify_congr _) _ _ _ (UnionFind.rep_add _ _).symm
  have hmono : ∀ {r}, accept u₀.fuel st p = some r → ∀ fuel, u₀.fuel ≤ fuel →
      accept fuel st p = some r := by
    intro r hr fuel hle
    rw [accept_eq] at hr ⊢
    exact unifyEach_mono (fun _ _ _ _ ↦ unify_mono_le hle) _ _ _ hr
  have hcollect : collectAndSolve st p = r'.map fun unionFind ↦ { u₀ with unionFind } := hsolve
  rw [hcollect]
  cases haccept : accept u₀.fuel st p with
  | none =>
    rw [haccept] at hsame
    cases r' <;> exact hsame.elim
  | some r =>
    rw [haccept] at hsame
    refine ⟨u₀.fuel, r, hmono haccept, ?_⟩
    cases r with
    | error e =>
      cases r' with
      | error e' => exact ⟨iff_of_true ⟨e, rfl⟩ ⟨e', rfl⟩, fun _ _ hU _ ↦ nomatch hU⟩
      | ok V => exact hsame.elim
    | ok U =>
      cases r' with
      | error e' => exact hsame.elim
      | ok V =>
        refine ⟨iff_of_false (fun ⟨_, he⟩ ↦ nomatch he) (fun ⟨_, he⟩ ↦ nomatch he), ?_⟩
        rintro _ _ ⟨⟩ ⟨⟩ s t
        have hrep : U.rep = V.rep := hsame
        rw [Bool.eq_iff_iff, UnionFind.connected_fst, UnionFind.connected_fst, hrep]

end Sipc
