import Sipc.Semantic.Types.Inferred
import Sipc.Semantic.Types.TypeConstraintVisitor

/-!
# Type inference

`TypeInference::run` in monomorphic mode: the constraints of the whole program are solved together,
and then `AbsentFieldChecker` looks up the inferred type of every field access. `Accepted.spec` says
what an accepted program is: its constraints entail no clash, and none of its accesses is entailed to
be the absent field.
-/

set_option autoImplicit false
set_option relaxedAutoImplicit false

namespace Sipc

/-- What type inference throws: the error of the unifier, or the `SemanticError` of an access to an
absent field. -/
inductive TypeError
  | unification (e : UnificationError)
  | absentField (access : NodeId)
  deriving DecidableEq

/-- `TypeInference`: the unifier that answers for the inferred types, and the number of sets of
variables it has gone through. -/
structure TypeInference where
  unifier : Unifier
  sets : ℕ

namespace AbsentFieldChecker

variable (iter : VarOrder) (fuel : ℕ)

/-- `AbsentFieldChecker::endVisit`. -/
def endVisit : ASTNode → Closing → Option (Except TypeError Closing)
  | .expr (.accessExpr node _ _), c => do
    let (inferredType, c) ← inferred iter fuel (.tipVar node) c
    return if inferredType = .absentField then .error (.absentField node) else .ok c
  | _, c => some (.ok c)

/-- One call of the visitor. -/
def step : VisitEvent → Closing → Option (Except TypeError Closing)
  | .endVisit n, c => endVisit iter fuel n c
  | .visit _, c => some (.ok c)

/-- The calls of the visitor in order, until one of them throws. -/
def steps : List VisitEvent → Closing → Option (Except TypeError Closing)
  | [], c => some (.ok c)
  | ev :: evs, c => do
    match ← step iter fuel ev c with
    | .ok c => steps evs c
    | .error e => return .error e

/-- `AbsentFieldChecker::check`. -/
def check (p : ASTProgram) (ti : TypeInference) : Option (Except TypeError TypeInference) :=
  (steps iter fuel p.accept ⟨ti.unifier.unionFind, ti.sets⟩).map fun r ↦ r.map fun c ↦
    ⟨{ ti.unifier with unionFind := c.unionFind }, c.sets⟩

/-- The program holds the access. -/
def HasAccess (evs : List VisitEvent) (node : NodeId) : Prop :=
  ∃ record field, .endVisit (.expr (.accessExpr node record field)) ∈ evs

variable {iter fuel}

theorem steps_ok {evs : List VisitEvent} {c c' : Closing}
    (h : steps iter fuel evs c = some (.ok c')) :
    c'.unionFind.rep = c.unionFind.rep ∧
      ∀ node, HasAccess evs node → c.unionFind.rep (.tipVar node) ≠ .absentField := by
  induction evs generalizing c with
  | nil =>
    obtain rfl := Except.ok.inj (Option.some.inj h)
    exact ⟨rfl, fun _ ⟨_, _, hmem⟩ ↦ nomatch hmem⟩
  | cons ev evs ih =>
    obtain ⟨r, hstep, h⟩ := Option.bind_eq_some_iff.1 h
    cases r with
    | error e => cases h
    | ok d =>
      obtain ⟨hrep, hrest⟩ := ih h
      have hev : d.unionFind.rep = c.unionFind.rep ∧ ∀ node record field,
          .endVisit (.expr (.accessExpr node record field)) = ev →
            c.unionFind.rep (.tipVar node) ≠ .absentField := by
        unfold step endVisit at hstep
        split at hstep
        · split at hstep
          · rename_i node record field
            obtain ⟨⟨t, c''⟩, hinferred, hstep⟩ := Option.bind_eq_some_iff.1 hstep
            dsimp only at hstep
            split_ifs at hstep with habsent
            · cases hstep
            · obtain rfl := Except.ok.inj (Option.some.inj hstep)
              refine ⟨close_rep_eq iter hinferred, fun n r f hn ↦ ?_⟩
              cases hn
              rwa [ne_eq, ← inferred_eq_absentField_iff iter hinferred]
          · rename_i hne
            obtain rfl := Except.ok.inj (Option.some.inj hstep)
            exact ⟨rfl, fun n r f hn ↦ absurd (VisitEvent.endVisit.inj hn).symm (hne _ _ _)⟩
        · obtain rfl := Except.ok.inj (Option.some.inj hstep)
          exact ⟨rfl, fun n r f hn ↦ nomatch hn⟩
      refine ⟨hrep.trans hev.1, fun node ⟨record, field, hmem⟩ ↦ ?_⟩
      rcases List.mem_cons.1 hmem with heq | hmem
      · exact hev.2 node record field heq
      · rw [← hev.1]
        exact hrest node ⟨record, field, hmem⟩

/-- Without an access there is nothing to check. -/
theorem steps_of_not_hasAccess {evs : List VisitEvent}
    (h : ∀ node, ¬ HasAccess evs node) (c : Closing) : steps iter fuel evs c = some (.ok c) := by
  induction evs with
  | nil => rfl
  | cons ev evs ih =>
    have hstep : step iter fuel ev c = some (.ok c) := by
      unfold step endVisit
      split
      · split
        · exact absurd ⟨_, _, List.mem_cons_self⟩ (h _)
        · rfl
      · rfl
    unfold steps
    rw [hstep]
    exact ih fun node ⟨r, f, hmem⟩ ↦ h node ⟨r, f, List.mem_cons_of_mem _ hmem⟩

end AbsentFieldChecker

/-- `runMono`. -/
def runMono (iter : VarOrder) (fuel : ℕ) (p : ASTProgram) (st : SymbolTable) :
    Option (Except TypeError TypeInference) :=
  match (Unifier.empty.add (p.typeConstraints st)).solve with
  | .error e => some (.error (.unification e))
  | .ok unifier => AbsentFieldChecker.check iter fuel p ⟨unifier, 0⟩

/-- Monomorphic type inference completes on the program. -/
def ASTProgram.AcceptedMono (p : ASTProgram) (st : SymbolTable) : Prop :=
  ∃ iter fuel ti, runMono iter fuel p st = some (.ok ti)

/-! ### The terms of the constraints -/

/-- A type without arguments. -/
def TipType.Leaf (t : TipType) : Prop :=
  t.isMu = false ∧ t.arguments = []

/-- A type whose arguments have no arguments. -/
def TipType.Shallow (t : TipType) : Prop :=
  t.isMu = false ∧ ∀ a ∈ t.arguments, a.Leaf

theorem TipType.Shallow.muFree {t : TipType} (h : t.Shallow) : t.MuFree := by
  refine muFree_of_arguments h.1 fun a ha ↦ muFree_of_arguments (h.2 a ha).1 fun b hb ↦ ?_
  rw [(h.2 a ha).2] at hb
  cases hb

theorem TipType.Leaf.shallow {t : TipType} (h : t.Leaf) : t.Shallow := by
  refine ⟨h.1, fun a ha ↦ ?_⟩
  rw [h.2] at ha
  cases ha

namespace TypeConstraintVisitor

variable (st : SymbolTable) (scope : NodeId)

theorem leaf_fieldType (fields : List ASTFieldExpr) (f : String) :
    (fieldType st scope fields f).Leaf := by
  unfold fieldType
  split <;> exact ⟨rfl, rfl⟩

theorem leaf_accessType (node : ASTExpr) (field f : String) :
    (accessType st scope node field f).Leaf := by
  unfold accessType
  split_ifs <;> exact ⟨rfl, rfl⟩

theorem shallow_function {ps : List TipType} {r : TipType} (hps : ∀ p ∈ ps, p.Leaf) (hr : r.Leaf) :
    (TipType.function ps r).Shallow := by
  refine ⟨rfl, fun a ha ↦ ?_⟩
  rcases List.mem_append.1 ha with ha | ha
  · exact hps a ha
  · exact List.mem_singleton.1 ha ▸ hr

/-- The visitor makes shallow terms only. -/
theorem shallow_endVisit (n : ASTNode) :
    ∀ c ∈ endVisit st scope n, c.lhs.Shallow ∧ c.rhs.Shallow := by
  have hvar : ∀ v : TipVar, (TipType.var v).Shallow := fun _ ↦ TipType.Leaf.shallow ⟨rfl, rfl⟩
  have hint : TipType.int.Shallow := TipType.Leaf.shallow ⟨rfl, rfl⟩
  have hbool : TipType.bool.Shallow := TipType.Leaf.shallow ⟨rfl, rfl⟩
  have hunary : ∀ v : TipVar, (TipType.ref (.var v)).Shallow ∧ (TipType.array (.var v)).Shallow :=
    fun v ↦ ⟨⟨rfl, by simp [TipType.arguments, TipType.Leaf, TipType.isMu]⟩,
      ⟨rfl, by simp [TipType.arguments, TipType.Leaf, TipType.isMu]⟩⟩
  have hvars : ∀ (ts : List TipType), (∀ t ∈ ts, ∃ v, t = .var v) → ∀ v,
      (TipType.function ts (.var v)).Shallow := by
    refine fun ts hts v ↦ shallow_function (fun t ht ↦ ?_) ⟨rfl, rfl⟩
    obtain ⟨w, rfl⟩ := hts t ht
    exact ⟨rfl, rfl⟩
  cases n with
  | function f =>
    have hfunction : (TipType.function (f.formals.map declToVar)
        (astToVar st scope f.ret.arg)).Shallow := hvars _ (by simp [declToVar]) _
    unfold endVisit endVisitFunction
    dsimp only
    split_ifs
    · intro c hc
      rcases List.mem_append.1 hc with hc | hc
      · obtain ⟨d, -, rfl⟩ := List.mem_map.1 hc
        exact ⟨hvar _, hint⟩
      · rcases List.mem_pair.1 hc with rfl | rfl
        · exact ⟨hvar _, hint⟩
        · exact ⟨hvar _, hfunction⟩
    · intro c hc
      rw [List.mem_singleton.1 hc]
      exact ⟨hvar _, hfunction⟩
  | expr e =>
    cases e with
    | binaryExpr n op l r =>
      cases op <;> simp [endVisit, endVisitExpr, endVisitBinary, astToVar, hvar, hint, hbool]
    | funAppExpr n f as =>
      have := hvars (as.map (astToVar st scope)) (by simp [astToVar])
        (.var (st.canonical scope (.funAppExpr n f as)))
      simpa [endVisit, endVisitExpr, astToVar, hvar]
    | recordExpr n fs =>
      have : (TipType.record (st.getFields.map (fieldType st scope fs))).Shallow :=
        ⟨rfl, by simp [TipType.arguments, leaf_fieldType]⟩
      simpa [endVisit, endVisitExpr, astToVar, hvar]
    | accessExpr n r f =>
      have : (TipType.record (st.getFields.map
          (accessType st scope (.accessExpr n r f) f))).Shallow :=
        ⟨rfl, by simp [TipType.arguments, leaf_accessType]⟩
      simpa [endVisit, endVisitExpr, astToVar, hvar]
    | arrayExpr n es =>
      intro c hc
      rcases List.mem_append.1 hc with hc | hc
      · obtain ⟨q, -, rfl⟩ := List.mem_map.1 hc
        exact ⟨hvar _, hvar _⟩
      · cases es with
        | nil => cases hc
        | cons a as =>
          rw [List.mem_singleton.1 hc]
          exact ⟨hvar _, (hunary _).2⟩
    | _ => simp [endVisit, endVisitExpr, astToVar, hvar, hint, hbool, hunary]
  | stmt s =>
    cases s with
    | assignStmt n l r => cases l <;> simp [endVisit, endVisitStmt, astToVar, hvar, hunary]
    | forStmt n i d b =>
      rcases d with _ | ⟨_, _, _ | _⟩ <;>
        simp [endVisit, endVisitStmt, astToVar, hvar, hunary, hint]
    | _ => simp [endVisit, endVisitStmt, astToVar, hvar, hint, hbool]
  | _ =>
    intro c hc
    cases hc

end TypeConstraintVisitor

/-- The constructor at a head; a recursive type shows that of the integers. -/
def TipType.Head.ctor : TipType.Head → TipType.TipCtor
  | .cons c => c
  | .mu _ _ => .int

/-- The constraints of a program are free of recursive types. -/
theorem ASTProgram.muFree_typeConstraints (p : ASTProgram) (st : SymbolTable) :
    ∀ c ∈ p.typeConstraints st, c.MuFree := by
  intro c hc
  obtain ⟨f, -, hc⟩ := List.mem_flatMap.1 hc
  obtain ⟨ev, -, hc⟩ := List.mem_flatMap.1 hc
  cases ev with
  | visit n => cases hc
  | endVisit n =>
    have h := TypeConstraintVisitor.shallow_endVisit st f.decl.node n c hc
    exact ⟨h.1.muFree, h.2.muFree⟩

namespace ASTProgram

variable {p : ASTProgram} {st : SymbolTable}

/-- An accepted program has a typing in which no access is absent. -/
theorem AcceptedMono.exists_isSolution (h : p.AcceptedMono st) :
    ∃ σ, IsSolution (p.typeConstraints st) σ ∧
      ∀ node, AbsentFieldChecker.HasAccess p.accept node →
        (σ (.tipVar node)).label ≠ .absentField := by
  obtain ⟨iter, fuel, ti, h⟩ := h
  unfold runMono at h
  have hsound := Unifier.sound_empty.add (p.typeConstraints st)
  rcases hsound.solve with ⟨u, hsolve, hconstraints, hsolved⟩ | ⟨⟨e, hsolve⟩, -⟩
  · rw [hsolve] at h
    obtain ⟨r, hsteps, h⟩ := Option.map_eq_some_iff.1 h
    cases r with
    | error e => cases h
    | ok c =>
      have habsent := (AbsentFieldChecker.steps_ok hsteps).2
      have hcs : u.constraints = p.typeConstraints st := hconstraints
      rw [← hcs]
      -- no class is labelled as the absent field but its own
      have hlabel : ∀ c, TipType.Head.ctor (.cons c) = c := fun _ ↦ rfl
      refine ⟨_, hsolved.isSolution hlabel fun _ ↦ .int,
        fun node hnode hlabel ↦ habsent node hnode ?_⟩
      rw [← TipType.head_eq_absentField_iff]
      have hfollow : (typeView.follow TipType.Head.ctor (fun _ ↦ .int) u.unionFind.rep (.tipVar node)).1 =
          .absentField := by
        rw [← hlabel]
        exact (Library.Tree.label_unfold _ _).symm
      unfold Library.TermView.follow at hfollow
      cases hhead : typeView.head (u.unionFind.rep (.tipVar node)) with
      | none =>
        rw [hhead] at hfollow
        cases hfollow
      | some k =>
        rw [hhead] at hfollow
        cases k with
        | cons c =>
          obtain rfl : c = .absentField := hfollow
          exact hhead
        | mu v t => cases hfollow
  · rw [hsolve] at h
    cases h

/-- A program with a typing and without accesses is accepted. -/
theorem acceptedMono_of_isSolution {σ : TipType → Library.Tree TipType.TipCtor}
    (hσ : IsSolution (p.typeConstraints st) σ)
    (h : ∀ node, ¬ AbsentFieldChecker.HasAccess p.accept node) : p.AcceptedMono st := by
  have hsound := Unifier.sound_empty.add (p.typeConstraints st)
  rcases hsound.solve with ⟨u, hsolve, -, -⟩ | ⟨-, s, t, hst, hclash⟩
  · refine ⟨.creation, 0, ⟨u, 0⟩, ?_⟩
    unfold runMono AbsentFieldChecker.check
    rw [hsolve]
    dsimp only
    rw [AbsentFieldChecker.steps_of_not_hasAccess h]
    rfl
  · exact absurd hclash (hσ.not_clash (p.muFree_typeConstraints st) hst)

end ASTProgram

end Sipc
