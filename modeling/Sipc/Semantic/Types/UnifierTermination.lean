import Sipc.Semantic.Types.Unifier

/-!
# Unification terminates

Every call of `unify` that `solve` makes, for a stored constraint or from within another call, ends with
a result or a throw, and so does every loop of `find` (`Unifier.terminates`). The terms that occur are
subterms of the constraints and of the map, and each call below another is made after a join of two of
them.
-/

set_option autoImplicit false
set_option relaxedAutoImplicit false

namespace Sipc

open Library Edges

/-! ### The loop of `find` -/

namespace UnionFind

variable {T : Type} [DecidableEq T]

/-- The loop of `find`, which ends by its test only. `none` means that the fuel ran out. -/
def searchRoot : ℕ → UnionFind T → T → Option (T × UnionFind T)
  | 0, _, _ => none
  | fuel + 1, U, t =>
    let (p, U) := U.getParent t
    if p = t then some (t, U) else searchRoot fuel U p

theorem searchRoot_eq {U : UnionFind T} : ∀ {fuel : ℕ} {t : T}, t ∈ U.keys →
    parent U.edges (findLoop fuel U t).1 = (findLoop fuel U t).1 →
    searchRoot (fuel + 1) U t = some (findLoop fuel U t)
  | 0, t, ht, hroot => by
    unfold searchRoot
    rw [getParent_eq_smartInsert, smartInsert_of_mem ht]
    exact if_pos hroot
  | fuel + 1, t, ht, hroot => by
    unfold searchRoot
    unfold findLoop at hroot ⊢
    rw [getParent_eq_smartInsert, smartInsert_of_mem ht] at hroot ⊢
    dsimp only at hroot ⊢
    split_ifs at hroot ⊢ with h
    · rfl
    · exact searchRoot_eq (parent_mem_keys ht) hroot

/-- The loop of `find` ends, at what `find` returns. -/
theorem exists_searchRoot (U : UnionFind T) (t : T) :
    ∃ fuel, searchRoot fuel (U.smartInsert t).2 (U.smartInsert t).1 = some (U.find t) := by
  have hfind : U.find t =
      findLoop (U.smartInsert t).2.edges.length (U.smartInsert t).2 (U.smartInsert t).1 := rfl
  refine ⟨(U.smartInsert t).2.edges.length + 1, ?_⟩
  rw [hfind]
  refine searchRoot_eq (U.smartInsert_fst_mem_keys t) ?_
  rw [← hfind, find_fst, parent_smartInsert]
  exact (U.forest.parent_eq_iff_rep_eq _).mpr (U.rep_rep t)

end UnionFind

/-! ### The calls that are made -/

/-- The pairs that a call of `unify` goes on to, if it goes on to any, and the structure it starts with. -/
def argumentCalls (t1 t2 : TipType) (unionFind : TypeForest) :
    Option (List (TipType × TipType) × TypeForest) :=
  let find1 := unionFind.find t1
  let find2 := find1.2.find t2
  if find1.1 ≠ find2.1 ∧ find1.1.isCons ∧ find2.1.isCons ∧ find1.1.doMatch find2.1 then
    some (find1.1.arguments.zip find2.1.arguments, find2.2.quickUnion find1.1 find2.1)
  else none

/-- A call goes on to the pairs of `argumentCalls`, and to nothing else. -/
theorem unify_eq_unifyEach (t1 t2 : TipType) (U : TypeForest) :
    (∀ ps V, argumentCalls t1 t2 U = some (ps, V) → ∀ fuel,
      unify (fuel + 1) t1 t2 U = unifyEach (unify fuel) ps V) ∧
    (argumentCalls t1 t2 U = none → ∃ r, ∀ fuel, unify (fuel + 1) t1 t2 U = some r) := by
  have hcons : ∀ t : TipType, t.isCons = true → t.isVar = false := by
    intro t h
    cases t <;> first | rfl | cases h
  simp only [argumentCalls, unify, UnionFind.find_fst, UnionFind.rep_find]
  generalize U.rep t1 = r₁
  generalize U.rep t2 = r₂
  generalize ((U.find t1).2.find t2).2 = V
  by_cases h : r₁ ≠ r₂ ∧ r₁.isCons = true ∧ r₂.isCons = true ∧ r₁.doMatch r₂ = true
  · obtain ⟨hne, h₁, h₂, hmatch⟩ := h
    simp only [hne, h₁, h₂, hmatch, hcons _ h₁, hcons _ h₂, ne_eq, not_false_eq_true, and_self,
      if_true, if_false, Bool.false_and, Bool.and_false, Bool.and_self, Bool.not_true,
      Bool.false_eq_true, reduceCtorEq, false_implies, and_true]
    intro ps V' heq fuel
    cases heq
    rfl
  · rw [if_neg h]
    refine ⟨fun ps V' heq ↦ (by cases heq), fun _ ↦ ?_⟩
    split_ifs with heq hv₁ hv₂ hv₃ hcc hm
    all_goals first
      | exact ⟨_, fun _ ↦ rfl⟩
      | exact absurd ⟨heq, by simpa [and_assoc] using And.intro hcc hm⟩ h

namespace Unifier

/-- The calls of `unify` that `solve` makes: for each stored constraint, after those before it, and
from a call for each pair of arguments, after those before it. -/
inductive Calls (u : Unifier) : TipType → TipType → TypeForest → Prop
  | ofConstraint {before after : List TypeConstraint} {c : TypeConstraint} {fuel : ℕ}
    {U : TypeForest} : u.constraints = before ++ c :: after →
    unifyEach (unify fuel) (before.map TypeConstraint.pair) u.unionFind = some (.ok U) →
    Calls u c.lhs c.rhs U
  | ofArguments {t1 t2 : TipType} {U V W : TypeForest} {before after : List (TipType × TipType)}
    {p : TipType × TipType} {fuel : ℕ} : Calls u t1 t2 U →
    argumentCalls t1 t2 U = some (before ++ p :: after, V) →
    unifyEach (unify fuel) before V = some (.ok W) → Calls u p.1 p.2 W

variable {u : Unifier} {s t : TipType} {U : TypeForest}

/-- The terms of every call are subterms that were there before, and so are their representatives. -/
theorem Calls.stays (h : u.Calls s t U) :
    s ∈ u.terms.toFinset ∧ t ∈ u.terms.toFinset ∧ StaysIn u.terms.toFinset U := by
  have hreturns := fun fuel ↦ unify_returnsIn (W := u.terms.toFinset) u.arguments_mem fuel
  -- a loop that has returned keeps the representatives among the terms
  have hloop : ∀ {fuel : ℕ} {ps : List (TipType × TipType)} {V V' : TypeForest},
      (∀ p ∈ ps, p.1 ∈ u.terms.toFinset ∧ p.2 ∈ u.terms.toFinset) →
      StaysIn u.terms.toFinset V → unifyEach (unify fuel) ps V = some (.ok V') →
      StaysIn u.terms.toFinset V' := by
    intro fuel ps V V' hps hV hrun
    have hmore : unifyEach (unify (max fuel (rootCount u.terms.toFinset V + 1))) ps V =
        some (.ok V') :=
      unifyEach_mono (fun _ _ _ _ ↦ unify_mono_le (le_max_left _ _)) ps V _ hrun
    have henough := unifyEach_returnsIn (fun s hs t ht V ↦ hreturns _ s hs t ht V) ps V hps hV
      (lt_of_lt_of_le (Nat.lt_succ_self _) (le_max_right fuel _))
    rcases henough with ⟨V'', hr, hstay, -⟩ | ⟨e, hr⟩
    · rw [hmore] at hr
      cases hr
      exact hstay
    · rw [hmore] at hr
      cases hr
  induction h with
  | @ofConstraint before after c fuel U hc hrun =>
    have hside : ∀ d ∈ u.constraints, d.lhs ∈ u.terms.toFinset ∧ d.rhs ∈ u.terms.toFinset :=
      fun d hd ↦ u.sides_mem hd
    have hcmem : c ∈ u.constraints := by
      rw [hc]
      exact List.mem_append_right _ List.mem_cons_self
    refine ⟨(hside c hcmem).1, (hside c hcmem).2, hloop (fun p hp ↦ ?_) u.staysIn_terms hrun⟩
    obtain ⟨d, hd, rfl⟩ := List.mem_map.mp hp
    exact hside d (by rw [hc]; exact List.mem_append_left _ hd)
  | @ofArguments t1 t2 U V W before after p fuel _ hargs hrun ih =>
    obtain ⟨hs, ht, hstay⟩ := ih
    unfold argumentCalls at hargs
    simp only [UnionFind.find_fst, UnionFind.rep_find] at hargs
    split_ifs at hargs with h
    obtain ⟨hps, hV⟩ := Prod.mk.inj (Option.some.inj hargs)
    have hr₁ := hstay _ hs
    have hr₂ := hstay _ ht
    have hmem : ∀ q ∈ before ++ p :: after, q.1 ∈ u.terms.toFinset ∧ q.2 ∈ u.terms.toFinset := by
      rw [← hps]
      exact fun q hq ↦ ⟨u.arguments_mem _ hr₁ _ (List.of_mem_zip hq).1,
        u.arguments_mem _ hr₂ _ (List.of_mem_zip hq).2⟩
    have hjoin : Joins U V (U.rep t1) (U.rep t2) := by
      rw [← hV]
      exact joins_quickUnion (by rw [UnionFind.rep_find, UnionFind.rep_find]) (U.rep_rep t1)
        (U.rep_rep t2) h.1
    have hp := hmem p (List.mem_append_right _ List.mem_cons_self)
    exact ⟨hp.1, hp.2, hloop (fun q hq ↦ hmem q (List.mem_append_left _ hq))
      (hstay.joins hjoin hr₂) hrun⟩

/-- Every call of `unify` that `solve` makes returns or throws, and so does every loop of `find`. -/
theorem terminates (u : Unifier) :
    (∀ s t U, u.Calls s t U → ∃ fuel r, unify fuel s t U = some r) ∧
      ∀ (U : TypeForest) (t : TipType), ∃ fuel,
        UnionFind.searchRoot fuel (U.smartInsert t).2 (U.smartInsert t).1 = some (U.find t) := by
  refine ⟨fun s t U h ↦ ?_, UnionFind.exists_searchRoot⟩
  obtain ⟨hs, ht, hstay⟩ := h.stays
  refine ⟨rootCount u.terms.toFinset U + 1, ?_⟩
  rcases unify_returnsIn u.arguments_mem _ s hs t ht U hstay (Nat.lt_succ_self _) with
    ⟨U', hr, -⟩ | ⟨e, hr⟩
  · exact ⟨_, hr⟩
  · exact ⟨_, hr⟩

/-- A variable equated with the type of pointers to it: the call for the constraint ends. -/
theorem terminates_recursive : ∃ fuel r, unify fuel (.tipVar 0) (.ref (.tipVar 0))
    (empty.add [⟨.tipVar 0, .ref (.tipVar 0)⟩]).unionFind = some r := by
  have hc : (empty.add [⟨.tipVar 0, .ref (.tipVar 0)⟩]).constraints =
      [] ++ ⟨.tipVar 0, .ref (.tipVar 0)⟩ :: [] := rfl
  exact (terminates (empty.add [⟨.tipVar 0, .ref (.tipVar 0)⟩])).1 _ _ _
    (.ofConstraint hc (show unifyEach (unify 0) [] _ = _ from rfl))

end Unifier

end Sipc
