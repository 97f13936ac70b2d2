import Sipc.Evaluation.Interpreter
import Sipc.Frontend.SyntaxTree
import Sipc.Semantic.Cfa.CFAnalyzer
import Sipc.Semantic.Weeding.CheckAssignable

/-!
# What is known about the cells of memory

An analysis of runs labels every cell when it is allocated, and its rule says what a cell with a label
may hold (`CellRule`). The operations on memory keep the rule (`holds_allocate`, `holds_load`,
`holds_store`), as long as what is stored in a cell fits its label. The names that a call sees lead to
the cells of their declarations (`exists_lookup_scope`).
-/

set_option autoImplicit false
set_option relaxedAutoImplicit false

namespace Sipc

open Library

/-- The expressions that `lvalue` is defined for. -/
def ASTExpr.HasCell : ASTExpr → Prop
  | .variableExpr _ _ | .deRefExpr _ _ | .accessExpr _ _ _ | .indexingExpr _ _ _ => True
  | _ => False

theorem hasCell_of_isAssignableOrDeRef {e : ASTExpr} (h : isAssignableOrDeRef e = true) :
    e.HasCell := by
  cases e <;> trivial

theorem hasCell_of_isAssignable {e : ASTExpr} (h : isAssignable e = true) : e.HasCell := by
  cases e <;> trivial

/-! ### Labelled cells -/

/-- What a cell with a label may hold, given the labels of all cells. -/
structure CellRule (τ : Type) where
  good : Layout τ → τ → Cell → Prop
  mono : ∀ {v w : Layout τ} {t : τ} {c : Cell}, v ≤ w → good v t c → good w t c

namespace CellRule

variable {τ : Type} (R : CellRule τ) (assumed ensured : Event → Prop) (permitted : Failure → Prop)

/-- Every cell has a label and holds what its label allows. -/
def guarantee : Guarantee Memory Event Failure (Layout τ) where
  inv w m := List.Forall₂ (R.good w) w.cells m.cells
  assumed := assumed
  ensured := ensured
  permitted := permitted

variable {R assumed ensured permitted} {w : Layout τ} {a : ℕ} {m : Memory}

theorem good_of_get (h : (R.guarantee assumed ensured permitted).inv w m) {c : Cell}
    (hc : m.cells[a]? = some c) : ∃ t, w.cells[a]? = some t ∧ R.good w t c := by
  have h' : List.Forall₂ (R.good w) w.cells m.cells := h
  obtain ⟨ha, rfl⟩ := List.getElem?_eq_some_iff.1 hc
  have ha' : a < w.cells.length := by
    rw [h'.length_eq]
    exact ha
  exact ⟨w.cells[a], List.getElem?_eq_getElem ha', h'.get ha' ha⟩

/-- New cells get labels of their own. -/
theorem holds_allocate {new : List Cell} {l : List τ}
    (h : List.Forall₂ (R.good (w.add l)) l new) :
    (R.guarantee assumed ensured permitted).Holds w (Memory.allocate new) fun w' base ↦
      ∀ i t, l[i]? = some t → w'.cells[base + i]? = some t := by
  refine Guarantee.holds_access fun m hm ↦ ⟨w.add l, w.le_add l, ?_, ?_⟩
  · have hold : List.Forall₂ (R.good (w.add l)) w.cells m.cells :=
      List.Forall₂.imp (fun _ _ ↦ R.mono (w.le_add l)) hm
    exact List.rel_append hold h
  · intro i t hi
    have hlen : m.cells.length = w.cells.length := (List.Forall₂.length_eq hm).symm
    rw [hlen, Layout.get_add, hi]

/-- A loaded value is one that the label of its cell allows. -/
theorem holds_load {Q : Layout τ → Value → Prop} (hpermitted : permitted .unassigned)
    (h : ∀ t c v, w.cells[a]? = some t → R.good w t c → c.content = some v → Q w v) :
    (R.guarantee assumed ensured permitted).Holds w (Memory.load a) Q := by
  refine Guarantee.Holds.bind (Q := fun w' c ↦ ∀ v, c.bind Cell.content = some v → Q w' v)
    (Guarantee.holds_access fun m hm ↦ ⟨w, le_refl w, hm, fun v hv ↦ ?_⟩) fun w' c _ hc ↦ ?_
  · obtain ⟨c, hc, hv⟩ := Option.bind_eq_some_iff.1 hv
    obtain ⟨t, ht, hgood⟩ := good_of_get hm hc
    exact h t c v ht hgood hv
  · exact Guarantee.holds_orFail (fun v hv ↦ hc v hv) fun _ ↦ hpermitted

/-- A store leaves the label of the cell. -/
theorem holds_store {v : Value} {Q : Layout τ → Unit → Prop}
    (h : ∀ t c, w.cells[a]? = some t → R.good w t c → R.good w t { c with content := some v })
    (hQ : Q w ()) : (R.guarantee assumed ensured permitted).Holds w (Memory.store a v) Q := by
  refine Guarantee.holds_access fun m hm ↦ ⟨w, le_refl w, ?_, hQ⟩
  refine List.forall₂_iff_get.2 ⟨?_, fun i hi hi' ↦ ?_⟩
  · rw [List.length_modify]
    exact List.Forall₂.length_eq hm
  · have hget : R.good w w.cells[i] (m.cells.get ⟨i, by simpa using hi'⟩) :=
      (List.forall₂_iff_get.1 hm).2 i hi _
    rw [List.get_eq_getElem, List.get_eq_getElem, List.getElem_modify]
    split_ifs with ha
    · exact h _ _ (by rw [ha, List.getElem?_eq_getElem hi]) hget
    · exact hget

/-- The declaration that a cell belongs to. -/
theorem holds_owner {Q : Layout τ → Option NodeId → Prop} (hnone : w.cells[a]? = none → Q w none)
    (h : ∀ t c, w.cells[a]? = some t → R.good w t c → Q w c.owner) :
    (R.guarantee assumed ensured permitted).Holds w (Memory.owner a) Q := by
  refine Guarantee.Holds.bind (Q := fun w' c ↦ Q w' (c.bind Cell.owner))
    (Guarantee.holds_access fun m hm ↦ ⟨w, le_refl w, hm, ?_⟩) fun w' c _ hc ↦
      Guarantee.holds_pure hc
  cases hc : m.cells[a]? with
  | none =>
    refine hnone (List.getElem?_eq_none_iff.2 ?_)
    rw [List.Forall₂.length_eq hm]
    exact List.getElem?_eq_none_iff.1 hc
  | some c =>
    obtain ⟨t, ht, hgood⟩ := good_of_get hm hc
    exact h t c ht hgood

theorem holds_read {Q : Layout τ → Word → Prop} (h : ∀ i, Q w i) :
    (R.guarantee assumed ensured permitted).Holds w Memory.read Q :=
  Guarantee.holds_access fun _ hm ↦ ⟨w, le_refl w, hm, h _⟩

end CellRule

/-! ### The names of a call -/

/-- The first of several declarations with a name gives the cell of the name. -/
theorem lookup_zipIdx_names (x : String) : ∀ (ds : List ASTDeclNode) (base : ℕ),
    (∃ i d, ds.find? (fun d ↦ d.name = x) = some d ∧ ds[i]? = some d ∧
      ((ds.map ASTDeclNode.name).zipIdx base).lookup x = some (base + i)) ∨
    (ds.find? (fun d ↦ d.name = x) = none ∧
      ((ds.map ASTDeclNode.name).zipIdx base).lookup x = none)
  | [], _ => .inr ⟨rfl, rfl⟩
  | d :: ds, base => by
    rw [List.map_cons, List.zipIdx_cons, List.lookup_cons, List.find?_cons]
    by_cases hd : d.name = x
    · refine .inl ⟨0, d, by simp [hd], rfl, by simp [hd]⟩
    · have hne : (x == d.name) = false := by simpa using Ne.symm hd
      rw [hne, decide_eq_false hd]
      refine (lookup_zipIdx_names x ds (base + 1)).imp_left ?_
      rintro ⟨i, d', hfind, hget, hlookup⟩
      exact ⟨i + 1, d', hfind, hget, by rw [hlookup, Nat.add_assoc, Nat.add_comm 1 i]⟩

/-- A variable of a function names the cell of its declaration, in the cells of a call or among those
of the functions. -/
theorem exists_lookup_scope {p : ASTProgram} {st : SymbolTable} (h : st.Describes p)
    {f : ASTFunction} (hf : f ∈ p.functions) {n : NodeId} {x : String}
    (hx : f.Visits (.expr (.variableExpr n x))) {base : ℕ} {P : ℕ → NodeId → Prop}
    (hlocal : ∀ i d, f.localDecls[i]? = some d → P (base + i) d.node)
    (hglobal : ∀ i g, p.functions[i]? = some g → P i g.decl.node) :
    ∃ a, ((f.localDecls.map ASTDeclNode.name).zipIdx base ++ p.globals).lookup x = some a ∧
      P a (p.denoted f (.variableExpr n x)) := by
  rw [ASTProgram.denoted, List.lookup_append]
  rcases lookup_zipIdx_names x f.localDecls base with ⟨i, d, hfind, hget, hlookup⟩ | ⟨hfind, hlookup⟩
  · rw [hfind, hlookup]
    exact ⟨base + i, rfl, hlocal i d hget⟩
  · rw [hfind, hlookup, Option.none_or]
    have hglobals : p.globals = ((p.functions.map ASTFunction.decl).map ASTDeclNode.name).zipIdx := by
      rw [ASTProgram.globals, List.map_map]
      rfl
    have hfun : p.findFunctionByName x =
        p.functions.find? ((fun d : ASTDeclNode ↦ decide (d.name = x)) ∘ ASTFunction.decl) := rfl
    have hmap := List.find?_map (p := fun d : ASTDeclNode ↦ decide (d.name = x))
      (f := ASTFunction.decl) (l := p.functions)
    rw [hglobals]
    rcases lookup_zipIdx_names x (p.functions.map ASTFunction.decl) 0 with
      ⟨i, d, hfind', hget, hlookup'⟩ | ⟨hfind', -⟩
    · rw [hfind'] at hmap
      obtain ⟨g, hg, rfl⟩ := Option.map_eq_some_iff.1 hmap.symm
      rw [hfun, hg, hlookup']
      rw [List.getElem?_map] at hget
      obtain ⟨g', hg', heq⟩ := Option.map_eq_some_iff.1 hget
      rw [Nat.zero_add]
      refine ⟨i, rfl, ?_⟩
      dsimp only
      rw [← heq]
      exact hglobal i g' hg'
    · -- a name that is neither local nor a function is not accepted
      have hnone : ∀ g ∈ p.functions, g.name ≠ x := by
        intro g hg hname
        have := List.find?_eq_none.1 hfind' g.decl (List.mem_map_of_mem hg)
        exact this (decide_eq_true hname)
      rcases h.known f hf n x hx.endVisit with hfx | hfx
      · obtain ⟨d, hd⟩ := Option.isSome_iff_exists.1 hfx
        obtain ⟨g, hg, hname, -⟩ := h.of_getFunction x d hd
        exact absurd hname (hnone g hg)
      · obtain ⟨d, hd, hname⟩ := List.mem_map.1 hfx
        have := List.find?_eq_none.1 hfind d hd
        exact absurd hname (by simpa using this)

/-- The cells of a call fit the labels of its declarations. -/
theorem forall₂_frame {τ : Type} {good : τ → Cell → Prop} {f : ASTFunction} {actuals : List Value}
    (label : ASTDeclNode → τ) (hlen : f.formals.length = actuals.length)
    (hformal : ∀ (i : ℕ) (d : ASTDeclNode) (v : Value), f.formals[i]? = some d → actuals[i]? = some v →
      good (label d) ⟨some d.node, some v⟩)
    (hlocal : ∀ d, good (label d) ⟨some d.node, none⟩) :
    List.Forall₂ good (f.localDecls.map label) (f.frame actuals) := by
  rw [ASTFunction.localDecls, ASTFunction.frame, List.map_append]
  refine List.rel_append ?_ ?_
  · refine List.forall₂_iff_get.2 ⟨by simp [hlen], fun i hi hi' ↦ ?_⟩
    rw [List.length_map] at hi
    have hi'' : i < actuals.length := hlen ▸ hi
    rw [List.get_eq_getElem, List.get_eq_getElem, List.getElem_map, List.getElem_zipWith]
    exact hformal i _ _ (List.getElem?_eq_getElem hi) (List.getElem?_eq_getElem hi'')
  · rw [List.forall₂_map_left_iff, List.forall₂_map_right_iff]
    exact List.forall₂_same.2 fun d _ ↦ hlocal d

end Sipc
