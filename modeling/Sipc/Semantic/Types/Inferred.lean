import Sipc.Semantic.Types.UnifierCorrectness

/-!
# Closed types

`Unifier::inferred` and what it uses: `TypeVars`, `Copier`, `Substituter`, `FreshAlphaCopier` and
`Unifier::close`. The sets of variables that `close` goes through are ordered by address. An
`IterationOrder` gives the order of each set collected, by the number of sets collected before it.

`close` is defined with fuel. A call that has no result with any fuel either does not return or
builds a recursive type on a null variable, whose next use is undefined. `inferred_tipVar_eq` is what
the check of absent fields needs: whatever the order, the class of a closed type is the class of the
representative.
-/

set_option autoImplicit false
set_option relaxedAutoImplicit false

namespace Sipc

namespace TipVar

/-- The copy that `Copier` makes: an alpha loses its context. -/
def copy : TipVar → TipVar
  | .var n => .var n
  | .alpha n _ name => .alpha n none name

/-- The copy that `FreshAlphaCopier` makes: an alpha gets the new context. -/
def freshCopy (context : NodeId) : TipVar → TipVar
  | .var n => .var n
  | .alpha n _ name => .alpha n (some context) name

/-- The name under which `close` binds or frees a variable. -/
def closedName : TipVar → TipVar
  | .var n => .alpha n none ""
  | .alpha n context name => .alpha n context name

end TipVar

namespace TipType

mutual

/-- `TypeVars::collect`. Each occurrence inserts a new pointer, so a variable is there once for every
occurrence. The visit of a recursive type erases the pointer to its variable, and this pointer was
never inserted. -/
def typeVars : TipType → List TipVar
  | .var v => [v.copy]
  | .int | .bool | .absentField => []
  | .ref t | .array t => typeVars t
  | .function ps r => typeVarsList ps ++ typeVars r
  | .record is => typeVarsList is
  | .mu v t => v.copy :: typeVars t

def typeVarsList : List TipType → List TipVar
  | [] => []
  | t :: ts => typeVars t ++ typeVarsList ts

end

mutual

/-- The copy of a type in which every variable is copied by `f`. -/
def mapVars (f : TipVar → TipVar) : TipType → TipType
  | .var v => .var (f v)
  | .int => .int
  | .bool => .bool
  | .absentField => .absentField
  | .ref t => .ref (mapVars f t)
  | .array t => .array (mapVars f t)
  | .function ps r => .function (mapVarsList f ps) (mapVars f r)
  | .record is => .record (mapVarsList f is)
  | .mu v t => .mu (f v) (mapVars f t)

def mapVarsList (f : TipVar → TipVar) : List TipType → List TipType
  | [] => []
  | t :: ts => mapVars f t :: mapVarsList f ts

end

/-- `Copier::copy`. -/
def copy (t : TipType) : TipType :=
  t.mapVars TipVar.copy

/-- `FreshAlphaCopier::copy`. -/
def freshAlphaCopy (context : NodeId) (t : TipType) : TipType :=
  t.mapVars (TipVar.freshCopy context)

mutual

/-- `Substituter::substitute`. The variable of a recursive type is visited like any other, and what
comes back must be a variable. -/
def substitute (target : TipVar) (substitution : TipType) : TipType → Option TipType
  | .var v => some (if v = target then substitution.copy else .var v.copy)
  | .int => some .int
  | .bool => some .bool
  | .absentField => some .absentField
  | .ref t => do return .ref (← substitute target substitution t)
  | .array t => do return .array (← substitute target substitution t)
  | .function ps r => do
    return .function (← substituteList target substitution ps) (← substitute target substitution r)
  | .record is => do return .record (← substituteList target substitution is)
  | .mu v t => do
    match if v = target then substitution.copy else .var v.copy with
    | .var w => return .mu w (← substitute target substitution t)
    | _ => none

def substituteList (target : TipVar) (substitution : TipType) : List TipType → Option (List TipType)
  | [] => some []
  | t :: ts => do
    return (← substitute target substitution t) :: (← substituteList target substitution ts)

end

/-- `TipCons::setArguments` on a copy of the term. -/
def setArguments : TipType → List TipType → TipType
  | .ref t, args => .ref (args.headD t)
  | .array t, args => .array (args.headD t)
  | .function _ r, args => .function args.dropLast (args.getLastD r)
  | .record _, args => .record args
  | t, _ => t

theorem head_eq_absentField_iff (t : TipType) :
    t.head = some (.cons .absentField) ↔ t = .absentField := by
  cases t <;> simp [head]

@[simp]
theorem head_setArguments (t : TipType) (args : List TipType) :
    (t.setArguments args).head = t.head := by
  cases t <;> rfl

end TipType

/-- The orders in which sets of new pointers are gone through: `order n` for the set that is collected
after `n` others. -/
structure VarOrder where
  order : ℕ → List TipVar → List TipVar
  perm : ∀ n vs, (order n vs).Perm vs

/-- The order in which the pointers were made. -/
def VarOrder.creation : VarOrder where
  order _ vs := vs
  perm _ _ := List.Perm.refl _

/-- What a call of `close` changes: the union-find structure, and the number of sets gone through. -/
structure Closing where
  unionFind : TypeForest
  sets : ℕ

section Close

variable (iter : VarOrder)

/-- The loop of `close` over the variables of a constructor's arguments. -/
def closeArguments (close : TipType → Closing → Option (TipType × Closing)) :
    List TipVar → List TipType → Closing → Option (List TipType × Closing)
  | [], current, c => some (current, c)
  | v :: vs, current, c => do
    let (closedV, c) ← close (.var v) c
    let current ← TipType.substituteList v closedV current
    closeArguments close vs current c

/-- `Unifier::close`. A variable that represents itself and one that is being closed become an alpha.
The test whether `find` returns the variable itself compares pointers; for two pointers to one
variable the call that follows makes the same alpha. -/
def close : ℕ → List TipVar → TipType → Closing → Option (TipType × Closing)
  | 0, _, _, _ => none
  | fuel + 1, visited, .var v, c =>
    if v ∈ visited then
      some (.tipAlpha v.node, c)
    else
      let (rep, unionFind) := c.unionFind.find (.var v)
      if rep = .var v then
        some (.tipAlpha v.node, { c with unionFind })
      else do
        let (closedV, c) ← close fuel (v :: visited) rep { c with unionFind }
        let newV := v.closedName
        if closedV ≠ .var newV ∧ newV ∈ closedV.typeVars then
          -- a cyclic reference
          return (.mu newV (← TipType.substitute v (.var newV) closedV), c)
        else
          return (closedV, c)
  | fuel + 1, visited, .mu v t, c => do
    let (closedT, c) ← close fuel visited t c
    return (.mu v closedT, c)
  | fuel + 1, visited, t, c => do
    let freeV := iter.order c.sets t.typeVars
    let (args, c) ←
      closeArguments (close fuel visited) freeV t.arguments { c with sets := c.sets + 1 }
    let consCopy := t.setArguments args
    return (consCopy, { c with unionFind := c.unionFind.add [consCopy] })

/-- `Unifier::inferred`. -/
def inferred (fuel : ℕ) (t : TipType) (c : Closing) : Option (TipType × Closing) :=
  close iter fuel [] t c

/-! ### The class of a closed type -/

theorem closeArguments_rep_eq {close : TipType → Closing → Option (TipType × Closing)}
    (h : ∀ {t c t' c'}, close t c = some (t', c') → c'.unionFind.rep = c.unionFind.rep) :
    ∀ {vs : List TipVar} {current : List TipType} {c : Closing} {ts : List TipType} {c' : Closing},
      closeArguments close vs current c = some (ts, c') → c'.unionFind.rep = c.unionFind.rep
  | [], _, _, _, _, hr => by
    obtain ⟨-, rfl⟩ := Prod.mk.inj (Option.some.inj hr)
    rfl
  | _ :: _, _, _, _, _, hr => by
    obtain ⟨⟨closedV, d⟩, hclose, hr⟩ := Option.bind_eq_some_iff.1 hr
    obtain ⟨current', -, hr⟩ := Option.bind_eq_some_iff.1 hr
    exact (closeArguments_rep_eq h hr).trans (h hclose)

/-- What a call of `close` on a variable does: it makes an alpha of the variable, or it closes the
representative and binds the variable if it is free in what it gets. -/
theorem close_var_cases {fuel : ℕ} {visited : List TipVar} {v : TipVar} {c c' : Closing}
    {t : TipType} (h : close iter (fuel + 1) visited (.var v) c = some (t, c')) :
    (t = .tipAlpha v.node ∧ (v ∈ visited ∨ c.unionFind.rep (.var v) = .var v) ∧
      c'.unionFind.rep = c.unionFind.rep) ∨
    (v ∉ visited ∧ c.unionFind.rep (.var v) ≠ .var v ∧ ∃ closedV,
      close iter fuel (v :: visited) (c.unionFind.rep (.var v))
        { c with unionFind := (c.unionFind.find (.var v)).2 } = some (closedV, c') ∧
      (t = closedV ∨ v.closedName ∈ closedV.typeVars ∧ ∃ t', t = .mu v.closedName t')) := by
  unfold close at h
  split_ifs at h with hvisited
  · obtain ⟨rfl, rfl⟩ := Prod.mk.inj (Option.some.inj h)
    exact Or.inl ⟨rfl, Or.inl hvisited, rfl⟩
  · rw [show c.unionFind.find (.var v) =
      (c.unionFind.rep (.var v), (c.unionFind.find (.var v)).2) from
      Prod.ext (UnionFind.find_fst _ _) rfl] at h
    dsimp only at h
    split_ifs at h with hrep
    · obtain ⟨rfl, rfl⟩ := Prod.mk.inj (Option.some.inj h)
      exact Or.inl ⟨rfl, Or.inr hrep, UnionFind.rep_find _ _⟩
    · obtain ⟨⟨closedV, d⟩, hclose, h⟩ := Option.bind_eq_some_iff.1 h
      dsimp only at h
      split_ifs at h with hcyclic
      · obtain ⟨t', -, h⟩ := Option.bind_eq_some_iff.1 h
        obtain ⟨rfl, rfl⟩ := Prod.mk.inj (Option.some.inj h)
        exact Or.inr ⟨hvisited, hrep, closedV, hclose, Or.inr ⟨hcyclic.2, t', rfl⟩⟩
      · obtain ⟨rfl, rfl⟩ := Prod.mk.inj (Option.some.inj h)
        exact Or.inr ⟨hvisited, hrep, closedV, hclose, Or.inl rfl⟩

/-- What a call of `close` on a constructor does. -/
theorem close_cons {fuel : ℕ} {visited : List TipVar} {t t' : TipType} {c c' : Closing}
    (ht : t.isCons = true) (h : close iter (fuel + 1) visited t c = some (t', c')) :
    ∃ args d, closeArguments (close iter fuel visited) (iter.order c.sets t.typeVars) t.arguments
        { c with sets := c.sets + 1 } = some (args, d) ∧ t' = t.setArguments args ∧
      c' = { d with unionFind := d.unionFind.add [t'] } := by
  cases t with
  | var v => cases ht
  | mu v t => cases ht
  | _ =>
    obtain ⟨⟨args, d⟩, hargs, h⟩ := Option.bind_eq_some_iff.1 h
    obtain ⟨rfl, rfl⟩ := Prod.mk.inj (Option.some.inj h)
    exact ⟨args, d, hargs, rfl, rfl⟩

/-- Closing changes no representative. -/
theorem close_rep_eq : ∀ {fuel : ℕ} {visited : List TipVar} {t t' : TipType} {c c' : Closing},
    close iter fuel visited t c = some (t', c') → c'.unionFind.rep = c.unionFind.rep := by
  intro fuel
  induction fuel with
  | zero => intro visited t t' c c' h; cases h
  | succ fuel ih =>
    intro visited t t' c c' h
    cases ht : t.isCons with
    | true =>
      obtain ⟨args, d, hargs, -, rfl⟩ := close_cons iter ht h
      rw [UnionFind.rep_add, closeArguments_rep_eq ih hargs]
    | false =>
      cases t with
      | var v =>
        rcases close_var_cases iter h with ⟨-, -, hrep⟩ | ⟨-, -, closedV, hclose, -⟩
        · exact hrep
        · exact (ih hclose).trans (UnionFind.rep_find _ _)
      | mu v t =>
        obtain ⟨⟨closedT, d⟩, hclose, h⟩ := Option.bind_eq_some_iff.1 h
        obtain ⟨-, rfl⟩ := Prod.mk.inj (Option.some.inj h)
        exact ih hclose
      | _ => cases ht

/-- The closed type of a variable is absent exactly if the variable was unified with the absent
field. -/
theorem inferred_eq_absentField_iff {fuel : ℕ} {v : TipVar} {t : TipType} {c c' : Closing}
    (h : inferred iter fuel (.var v) c = some (t, c')) :
    t = .absentField ↔ c.unionFind.rep (.var v) = .absentField := by
  cases fuel with
  | zero => cases h
  | succ fuel =>
    rcases close_var_cases iter h with ⟨rfl, hvisited | hrep, -⟩ | ⟨-, hne, closedV, hclose, ht⟩
    · cases hvisited
    · rw [hrep]
      exact iff_of_false TipType.noConfusion TipType.noConfusion
    -- the class of the closed representative decides
    · have hclass : closedV = .absentField ↔ c.unionFind.rep (.var v) = .absentField := by
        cases fuel with
        | zero => cases hclose
        | succ fuel =>
          cases hcons : (c.unionFind.rep (.var v)).isCons with
          | true =>
            obtain ⟨args, d, -, rfl, -⟩ := close_cons iter hcons hclose
            rw [← TipType.head_eq_absentField_iff, TipType.head_setArguments,
              TipType.head_eq_absentField_iff]
          | false =>
            have hroot := c.unionFind.rep_rep (.var v)
            generalize c.unionFind.rep (.var v) = r at hcons hroot hclose
            cases r with
            | var w =>
              rcases close_var_cases iter hclose with ⟨rfl, -⟩ | ⟨-, hw, -⟩
              · exact iff_of_false TipType.noConfusion TipType.noConfusion
              · exact absurd ((congrFun (UnionFind.rep_find _ _) _).trans hroot) hw
            | mu w t =>
              obtain ⟨⟨closedT, d⟩, -, hclose⟩ := Option.bind_eq_some_iff.1 hclose
              obtain ⟨rfl, -⟩ := Prod.mk.inj (Option.some.inj hclose)
              exact iff_of_false TipType.noConfusion TipType.noConfusion
            | _ => cases hcons
      rcases ht with rfl | ⟨hmem, t', rfl⟩
      · exact hclass
      · refine iff_of_false TipType.noConfusion fun habsent ↦ ?_
        rw [hclass.2 habsent] at hmem
        cases hmem

end Close

end Sipc
