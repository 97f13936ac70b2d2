import Sipc.Library.Unification
import Sipc.Semantic.Types.TipType
import Sipc.Semantic.Types.UnionFind

/-!
# Unification of type terms

`semantic/types/solver/Unifier`: `add` stores constraints, `solve` unifies all stored constraints in
the order they were added. `unify` recurses over the arguments of two representatives after it has
joined them, and is defined with fuel. Every recursive call happens below a join, which leaves one
root fewer among the subterms of the constraints, so the fuel `solve` gives it is enough
(`solveWith_isSome`).
-/

set_option autoImplicit false
set_option relaxedAutoImplicit false

namespace Sipc

open Library

/-- `TypeConstraint`: an equation between two type terms. -/
structure TypeConstraint where
  lhs : TipType
  rhs : TipType
  deriving DecidableEq

/-- `UnificationError`: the two terms its message names, and their respective roots. -/
structure UnificationError where
  t1 : TipType
  t2 : TipType
  root1 : TipType
  root2 : TipType
  deriving DecidableEq

/-- The union-find structure over type terms. -/
abbrev TypeForest := UnionFind TipType

/-- `Unifier::throwUnifyException`. -/
def throwUnifyException (t1 t2 : TipType) (unionFind : TypeForest) : UnificationError :=
  let root1 := unionFind.find t1
  let root2 := root1.2.find t2
  ⟨t1, t2, root1.1, root2.1⟩

/-- Unify the pairs of a list in order, until one of them throws. -/
def unifyEach (unify : TipType → TipType → TypeForest → Option (Except UnificationError TypeForest)) :
    List (TipType × TipType) → TypeForest → Option (Except UnificationError TypeForest)
  | [], unionFind => some (.ok unionFind)
  | p :: ps, unionFind =>
    match unify p.1 p.2 unionFind with
    | some (.ok unionFind') => unifyEach unify ps unionFind'
    | r => r

/-- `Unifier::unify`. `none` means that the fuel ran out. -/
def unify : ℕ → TipType → TipType → TypeForest → Option (Except UnificationError TypeForest)
  | 0, _, _, _ => none
  | fuel + 1, t1, t2, unionFind =>
    let find1 := unionFind.find t1
    let find2 := find1.2.find t2
    let rep1 := find1.1
    let rep2 := find2.1
    let unionFind := find2.2
    if rep1 = rep2 then
      some (.ok unionFind)
    else if rep1.isVar && rep2.isVar then
      some (.ok (unionFind.quickUnion rep1 rep2))
    else if rep1.isVar && rep2.isProperType then
      some (.ok (unionFind.quickUnion rep1 rep2))
    else if rep1.isProperType && rep2.isVar then
      some (.ok (unionFind.quickUnion rep2 rep1))
    else if rep1.isCons && rep2.isCons then
      if !rep1.doMatch rep2 then
        some (.error (throwUnifyException t1 t2 unionFind))
      else
        -- the classes are joined before their arguments are looked at
        unifyEach (unify fuel) (rep1.arguments.zip rep2.arguments) (unionFind.quickUnion rep1 rep2)
    else
      some (.error (throwUnifyException t1 t2 unionFind))

/-- The two sides of a constraint and, one level deep, their arguments: what `Unifier::add` puts into
the union-find structure. -/
def TypeConstraint.seed (c : TypeConstraint) : List TipType :=
  c.lhs :: c.rhs :: (c.lhs.arguments ++ c.rhs.arguments)

/-- A constraint as a pair of terms to unify. -/
def TypeConstraint.pair (c : TypeConstraint) : TipType × TipType :=
  (c.lhs, c.rhs)

/-- `Unifier`. -/
structure Unifier where
  constraints : List TypeConstraint
  unionFind : TypeForest

namespace Unifier

/-- The unifier of the default constructor. -/
def empty : Unifier where
  constraints := []
  unionFind := UnionFind.empty

/-- `Unifier::add`. -/
def add (u : Unifier) (constrs : List TypeConstraint) : Unifier where
  constraints := u.constraints ++ constrs
  unionFind := u.unionFind.add (constrs.flatMap TypeConstraint.seed)

/-- The loop of `Unifier::solve`, when `unify` has some amount of fuel. -/
def solveWith (fuel : ℕ) (u : Unifier) : Option (Except UnificationError TypeForest) :=
  unifyEach (unify fuel) (u.constraints.map TypeConstraint.pair) u.unionFind

/-- The terms unification can meet: the subterms of the map and of the constraints. -/
def terms (u : Unifier) : List TipType :=
  TipType.subtermsList
    (u.unionFind.keys ++ u.constraints.flatMap fun c ↦ [c.lhs, c.rhs])

end Unifier

/-! ### One call of `unify` -/

/-- Unification sees the class and the arguments of a term. -/
def typeView : TermView TipType TipType.Head where
  head := TipType.head
  args := TipType.arguments

theorem proper_iff (t : TipType) : typeView.Proper t ↔ t.isProperType = true := by
  cases t <;> simp [TermView.Proper, typeView, TipType.head, TipType.isProperType, TipType.isVar]

/-- `U'` joins the class of the root `a` to the class of the root `b` of `U`. -/
structure Joins (U U' : TypeForest) (a b : TipType) : Prop where
  root_left : U.rep a = a
  root_right : U.rep b = b
  ne : a ≠ b
  rep_apply : ∀ t, U'.rep t = if U.rep t = a then b else U.rep t

/-- The forest after a join is the linked forest. -/
theorem Joins.rep_eq {U U' : TypeForest} {a b : TipType} (h : Joins U U' a b) :
    U'.rep = (U.forest.link h.root_left h.root_right h.ne).rep := by
  funext t
  rw [h.rep_apply]
  exact (UnionForest.rep_link h.root_left h.root_right h.ne t).symm

theorem joins_quickUnion {U V : TypeForest} {a b : TipType} (hV : V.rep = U.rep)
    (ha : U.rep a = a) (hb : U.rep b = b) (hab : a ≠ b) : Joins U (V.quickUnion a b) a b where
  root_left := ha
  root_right := hb
  ne := hab
  rep_apply := by
    intro t
    rw [UnionFind.rep_quickUnion, hV, ha, hb]

/-- What one call of `unify` does. The four cases are: one class already; one of the two
representatives is a variable and goes below the other; both are constructors of one class, and their
arguments are unified after the join; the representatives clash. -/
theorem unify_cases (fuel : ℕ) (t₁ t₂ : TipType) (U : TypeForest) :
    (U.rep t₁ = U.rep t₂ ∧ ∃ U', unify (fuel + 1) t₁ t₂ U = some (.ok U') ∧ U'.rep = U.rep) ∨
    (∃ a b U', ((U.rep t₁ = a ∧ U.rep t₂ = b) ∨ (U.rep t₁ = b ∧ U.rep t₂ = a)) ∧
      ¬ typeView.Proper a ∧ Joins U U' a b ∧ unify (fuel + 1) t₁ t₂ U = some (.ok U')) ∨
    (∃ U', typeView.Proper (U.rep t₁) ∧ typeView.Match (U.rep t₁) (U.rep t₂) ∧
      Joins U U' (U.rep t₁) (U.rep t₂) ∧
      unify (fuel + 1) t₁ t₂ U =
        unifyEach (unify fuel) ((U.rep t₁).arguments.zip (U.rep t₂).arguments) U') ∨
    (typeView.Clash (U.rep t₁) (U.rep t₂) ∧
      ∃ e, unify (fuel + 1) t₁ t₂ U = some (.error e)) := by
  set V := ((U.find t₁).2.find t₂).2 with hVdef
  have hV : V.rep = U.rep := by rw [hVdef, UnionFind.rep_find, UnionFind.rep_find]
  have hunfold : unify (fuel + 1) t₁ t₂ U =
      if U.rep t₁ = U.rep t₂ then some (.ok V)
      else if (U.rep t₁).isVar && (U.rep t₂).isVar then
        some (.ok (V.quickUnion (U.rep t₁) (U.rep t₂)))
      else if (U.rep t₁).isVar && (U.rep t₂).isProperType then
        some (.ok (V.quickUnion (U.rep t₁) (U.rep t₂)))
      else if (U.rep t₁).isProperType && (U.rep t₂).isVar then
        some (.ok (V.quickUnion (U.rep t₂) (U.rep t₁)))
      else if (U.rep t₁).isCons && (U.rep t₂).isCons then
        if !(U.rep t₁).doMatch (U.rep t₂) then some (.error (throwUnifyException t₁ t₂ V))
        else unifyEach (unify fuel) ((U.rep t₁).arguments.zip (U.rep t₂).arguments)
          (V.quickUnion (U.rep t₁) (U.rep t₂))
      else some (.error (throwUnifyException t₁ t₂ V)) := by
    simp only [unify, UnionFind.find_fst, UnionFind.rep_find, hVdef]
  rw [hunfold]
  by_cases heq : U.rep t₁ = U.rep t₂
  · exact Or.inl ⟨heq, V, if_pos heq, hV⟩
  refine Or.inr ?_
  rw [if_neg heq]
  have hroot₁ := U.rep_rep t₁
  have hroot₂ := U.rep_rep t₂
  generalize U.rep t₁ = r₁ at *
  generalize U.rep t₂ = r₂ at *
  have hvar : ∀ r : TipType, r.isVar = true → ¬ typeView.Proper r := by
    intro r hr hp
    rw [proper_iff, TipType.isProperType, hr] at hp
    cases hp
  by_cases hv₁ : r₁.isVar = true
  · refine Or.inl ⟨r₁, r₂, V.quickUnion r₁ r₂, Or.inl ⟨rfl, rfl⟩, hvar r₁ hv₁,
      joins_quickUnion hV hroot₁ hroot₂ heq, ?_⟩
    by_cases hv₂ : r₂.isVar = true
    · simp [hv₁, hv₂]
    · simp [hv₁, hv₂, TipType.isProperType]
  by_cases hv₂ : r₂.isVar = true
  · refine Or.inl ⟨r₂, r₁, V.quickUnion r₂ r₁, Or.inr ⟨rfl, rfl⟩, hvar r₂ hv₂,
      joins_quickUnion hV hroot₂ hroot₁ (Ne.symm heq), ?_⟩
    simp [hv₁, hv₂, TipType.isProperType]
  refine Or.inr ?_
  have hp₁ : typeView.Proper r₁ := (proper_iff r₁).mpr (by simp [TipType.isProperType, hv₁])
  have hp₂ : typeView.Proper r₂ := (proper_iff r₂).mpr (by simp [TipType.isProperType, hv₂])
  by_cases hcons : r₁.isCons = true ∧ r₂.isCons = true
  · have hmatch := TipType.doMatch_iff hcons.1 hcons.2 heq
    by_cases hdo : r₁.doMatch r₂ = true
    · exact Or.inl ⟨V.quickUnion r₁ r₂, hp₁, hmatch.mp hdo,
        joins_quickUnion hV hroot₁ hroot₂ heq, by simp [hv₁, hv₂, hcons, hdo]⟩
    · exact Or.inr ⟨⟨hp₁, hp₂, fun h ↦ hdo (hmatch.mpr h)⟩, _, by
        simp [hv₁, hv₂, hcons, hdo]; rfl⟩
  · -- one of the two is a recursive type, and recursive types match only when they are equal
    refine Or.inr ⟨⟨hp₁, hp₂, fun h ↦ ?_⟩, throwUnifyException t₁ t₂ V, ?_⟩
    · have hhead : r₁.head = r₂.head := h.1
      revert hcons hhead heq hv₁ hv₂
      cases r₁ <;> cases r₂ <;> simp [TipType.isCons, TipType.head, TipType.isVar]
    · have : (r₁.isCons && r₂.isCons) = false := by simpa using hcons
      simp [hv₁, hv₂, this]

/-! ### Enough fuel -/

/-- Representatives of terms of `W` are terms of `W`. -/
def StaysIn (W : Finset TipType) (U : TypeForest) : Prop :=
  ∀ t ∈ W, U.rep t ∈ W

/-- The number of roots among the terms of `W`. -/
def rootCount (W : Finset TipType) (U : TypeForest) : ℕ :=
  (U.forest.roots W).card

theorem rootCount_congr {W : Finset TipType} {U V : TypeForest} (h : V.rep = U.rep) :
    rootCount W V = rootCount W U := by
  have hrep : V.forest.rep = U.forest.rep := h
  unfold rootCount UnionForest.roots
  rw [hrep]

theorem StaysIn.joins {W : Finset TipType} {U U' : TypeForest} {a b : TipType} (h : StaysIn W U)
    (hjoin : Joins U U' a b) (hb : b ∈ W) : StaysIn W U' := by
  intro t ht
  rw [hjoin.rep_apply]
  split_ifs
  · exact hb
  · exact h t ht

theorem Joins.rootCount_lt {W : Finset TipType} {U U' : TypeForest} {a b : TipType}
    (hjoin : Joins U U' a b) (ha : a ∈ W) : rootCount W U' < rootCount W U := by
  have hrep : U'.forest.rep = (U.forest.link hjoin.root_left hjoin.root_right hjoin.ne).rep :=
    hjoin.rep_eq
  have hlt := UnionForest.card_roots_link_lt hjoin.root_left hjoin.root_right hjoin.ne ha
  unfold rootCount UnionForest.roots at hlt ⊢
  rw [hrep]
  exact hlt

/-- The outcome of a terminated call, with no more roots in `W` than before. -/
def ReturnsIn (W : Finset TipType) (U : TypeForest)
    (r : Option (Except UnificationError TypeForest)) : Prop :=
  (∃ U', r = some (.ok U') ∧ StaysIn W U' ∧ rootCount W U' ≤ rootCount W U) ∨
    ∃ e, r = some (.error e)

theorem ReturnsIn.mono {W : Finset TipType} {U V : TypeForest}
    {r : Option (Except UnificationError TypeForest)} (h : ReturnsIn W U r)
    (hle : rootCount W U ≤ rootCount W V) : ReturnsIn W V r :=
  h.imp_left fun ⟨U', hr, hstay, hcount⟩ ↦ ⟨U', hr, hstay, hcount.trans hle⟩

/-- If calls on the terms of `W` return while there are fewer roots than `bound`, so does a loop of
such calls. -/
theorem unifyEach_returnsIn {W : Finset TipType} {bound : ℕ}
    {unify : TipType → TipType → TypeForest → Option (Except UnificationError TypeForest)}
    (h : ∀ s ∈ W, ∀ t ∈ W, ∀ U, StaysIn W U → rootCount W U < bound →
      ReturnsIn W U (unify s t U)) :
    ∀ (ps : List (TipType × TipType)) (U : TypeForest), (∀ p ∈ ps, p.1 ∈ W ∧ p.2 ∈ W) →
      StaysIn W U → rootCount W U < bound → ReturnsIn W U (unifyEach unify ps U)
  | [], U, _, hstay, _ => Or.inl ⟨U, rfl, hstay, le_rfl⟩
  | p :: ps, U, hps, hstay, hcount => by
    obtain ⟨hp₁, hp₂⟩ := hps p List.mem_cons_self
    unfold unifyEach
    rcases h p.1 hp₁ p.2 hp₂ U hstay hcount with ⟨U', hr, hstay', hle⟩ | ⟨e, hr⟩
    · rw [hr]
      exact (unifyEach_returnsIn h ps U' (fun q hq ↦ hps q (List.mem_cons_of_mem _ hq)) hstay'
        (hle.trans_lt hcount)).mono hle
    · rw [hr]
      exact Or.inr ⟨e, rfl⟩

/-- More fuel than there are roots is enough: every recursive call is made after a join. -/
theorem unify_returnsIn {W : Finset TipType} (hW : ∀ t ∈ W, ∀ a ∈ t.arguments, a ∈ W) :
    ∀ (fuel : ℕ) (t₁ : TipType), t₁ ∈ W → ∀ t₂ ∈ W, ∀ U, StaysIn W U →
      rootCount W U < fuel → ReturnsIn W U (unify fuel t₁ t₂ U) := by
  intro fuel
  induction fuel with
  | zero => intro t₁ _ t₂ _ U _ hcount; omega
  | succ fuel ih =>
    intro t₁ ht₁ t₂ ht₂ U hstay hcount
    have hr₁ := hstay t₁ ht₁
    have hr₂ := hstay t₂ ht₂
    rcases unify_cases fuel t₁ t₂ U with
      ⟨_, U', hr, hrep⟩ | ⟨a, b, U', hab, _, hjoin, hr⟩ | ⟨U', _, _, hjoin, hr⟩ | ⟨_, e, hr⟩
    · refine Or.inl ⟨U', hr, fun t ht ↦ hrep ▸ hstay t ht, (rootCount_congr hrep).le⟩
    · have hmem : a ∈ W ∧ b ∈ W := by
        rcases hab with ⟨rfl, rfl⟩ | ⟨rfl, rfl⟩
        · exact ⟨hr₁, hr₂⟩
        · exact ⟨hr₂, hr₁⟩
      exact Or.inl ⟨U', hr, hstay.joins hjoin hmem.2, (hjoin.rootCount_lt hmem.1).le⟩
    · have hlt := hjoin.rootCount_lt hr₁
      rw [hr]
      refine (unifyEach_returnsIn (fun s hs t ht V ↦ ih s hs t ht V) _ U' ?_
        (hstay.joins hjoin hr₂) (by omega)).mono hlt.le
      intro p hp
      exact ⟨hW _ hr₁ _ (List.of_mem_zip hp).1, hW _ hr₂ _ (List.of_mem_zip hp).2⟩
    · exact Or.inr ⟨e, hr⟩

/-! ### More fuel changes nothing -/

theorem unifyEach_mono
    {f g : TipType → TipType → TypeForest → Option (Except UnificationError TypeForest)}
    (h : ∀ s t U r, f s t U = some r → g s t U = some r) :
    ∀ (ps : List (TipType × TipType)) (U : TypeForest) (r : Except UnificationError TypeForest),
      unifyEach f ps U = some r → unifyEach g ps U = some r
  | [], _, _, hr => hr
  | p :: ps, U, r, hr => by
    unfold unifyEach at hr ⊢
    cases hf : f p.1 p.2 U with
    | none =>
      rw [hf] at hr
      cases hr
    | some s =>
      rw [h _ _ _ _ hf]
      rw [hf] at hr
      cases s with
      | error e => exact hr
      | ok U' => exact unifyEach_mono h ps U' r hr

/-- A result of `unify` does not depend on the fuel. -/
theorem unify_mono : ∀ (fuel : ℕ) (t₁ t₂ : TipType) (U : TypeForest)
    (r : Except UnificationError TypeForest),
    unify fuel t₁ t₂ U = some r → unify (fuel + 1) t₁ t₂ U = some r := by
  intro fuel
  induction fuel with
  | zero => intro t₁ t₂ U r hr; cases hr
  | succ fuel ih =>
    intro t₁ t₂ U r hr
    rw [unify] at hr
    rw [unify]
    split_ifs at hr ⊢
    all_goals first | exact hr | exact unifyEach_mono ih _ _ r hr

theorem unify_mono_le {fuel fuel' : ℕ} (hle : fuel ≤ fuel') {t₁ t₂ : TipType} {U : TypeForest}
    {r : Except UnificationError TypeForest} (h : unify fuel t₁ t₂ U = some r) :
    unify fuel' t₁ t₂ U = some r := by
  induction hle with
  | refl => exact h
  | step _ ih => exact unify_mono _ _ _ _ _ ih

namespace Unifier

/-- As much fuel as `solve` needs. -/
def fuel (u : Unifier) : ℕ :=
  u.terms.length + 1

theorem terms_arguments (u : Unifier) {t a : TipType} (ht : t ∈ u.terms) (ha : a ∈ t.arguments) :
    a ∈ u.terms :=
  TipType.arguments_subset_subtermsList _ ht ha

theorem terms_rep (u : Unifier) {t : TipType} (ht : t ∈ u.terms) : u.unionFind.rep t ∈ u.terms := by
  by_cases hkey : t ∈ u.unionFind.keys
  · exact TipType.mem_subtermsList _ (List.mem_append_left _ (UnionFind.rep_mem_keys hkey))
  · rwa [UnionFind.rep_of_not_mem_keys hkey]

theorem arguments_mem (u : Unifier) :
    ∀ t ∈ u.terms.toFinset, ∀ a ∈ t.arguments, a ∈ u.terms.toFinset := by
  intro t ht a ha
  rw [List.mem_toFinset] at ht ⊢
  exact u.terms_arguments ht ha

theorem staysIn_terms (u : Unifier) : StaysIn u.terms.toFinset u.unionFind := by
  intro t ht
  rw [List.mem_toFinset] at ht ⊢
  exact u.terms_rep ht

theorem sides_mem (u : Unifier) {c : TypeConstraint} (hc : c ∈ u.constraints) :
    c.lhs ∈ u.terms.toFinset ∧ c.rhs ∈ u.terms.toFinset := by
  have hmem : ∀ t, t = c.lhs ∨ t = c.rhs → t ∈ u.terms.toFinset := by
    intro t ht
    rw [List.mem_toFinset]
    refine TipType.mem_subtermsList _ (List.mem_append_right _ (List.mem_flatMap.mpr ⟨c, hc, ?_⟩))
    rcases ht with rfl | rfl <;> simp
  exact ⟨hmem _ (Or.inl rfl), hmem _ (Or.inr rfl)⟩

/-- `solve` does not run out of fuel. -/
theorem solveWith_isSome (u : Unifier) : (u.solveWith u.fuel).isSome = true := by
  have hcount : rootCount u.terms.toFinset u.unionFind < u.fuel := by
    have hle : rootCount u.terms.toFinset u.unionFind ≤ u.terms.toFinset.card :=
      Finset.card_filter_le _ _
    have hlen := u.terms.toFinset_card_le
    unfold fuel
    omega
  have hpairs : ∀ p ∈ u.constraints.map TypeConstraint.pair,
      p.1 ∈ u.terms.toFinset ∧ p.2 ∈ u.terms.toFinset := by
    intro p hp
    obtain ⟨c, hc, rfl⟩ := List.mem_map.mp hp
    exact u.sides_mem hc
  rcases unifyEach_returnsIn
    (fun s hs t ht V ↦ unify_returnsIn u.arguments_mem u.fuel s hs t ht V) _
    u.unionFind hpairs u.staysIn_terms hcount with ⟨U', hr, _⟩ | ⟨e, hr⟩
  · unfold solveWith
    rw [hr]
    rfl
  · unfold solveWith
    rw [hr]
    rfl

/-- `Unifier::solve`. -/
def solve (u : Unifier) : Except UnificationError Unifier :=
  ((u.solveWith u.fuel).get u.solveWith_isSome).map fun unionFind ↦ { u with unionFind }

/-- `solve` is what the loop computes with any fuel that suffices. -/
theorem solve_eq {u : Unifier} {fuel : ℕ} {r : Except UnificationError TypeForest}
    (h : u.solveWith fuel = some r) :
    u.solve = r.map fun unionFind ↦ { u with unionFind } := by
  have hget : (u.solveWith u.fuel).get u.solveWith_isSome = r := by
    obtain ⟨r', hr'⟩ := Option.isSome_iff_exists.mp u.solveWith_isSome
    have hmono : ∀ fuel r, u.solveWith fuel = some r →
        u.solveWith (max fuel u.fuel) = some r → r = r' := by
      intro fuel r _ hmax
      have hmax' : u.solveWith (max fuel u.fuel) = some r' :=
        unifyEach_mono (fun _ _ _ _ ↦ unify_mono_le (le_max_right fuel u.fuel)) _ _ _ hr'
      exact Option.some.inj (hmax.symm.trans hmax')
    have hr := hmono fuel r h
      (unifyEach_mono (fun _ _ _ _ ↦ unify_mono_le (le_max_left fuel u.fuel)) _ _ _ h)
    rw [Option.get_of_eq_some _ hr', hr]
  unfold solve
  rw [hget]

end Unifier

end Sipc
