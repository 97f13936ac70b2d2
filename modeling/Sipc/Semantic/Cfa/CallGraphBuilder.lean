import Mathlib.Data.List.TFAE
import Mathlib.Data.String.Basic
import Sipc.Library.OrderedMap
import Sipc.Semantic.Cfa.CFAnalyzer
import Sipc.Semantic.Cfa.CubicSolverFunctions

/-!
# Building and asking a call graph

`semantic/cfa/CallGraphBuilder` and the queries of `semantic/cfa/CallGraph` on the object as it is
stored, whose vector of edges grows with every `getEdges`. A function is its address. The maps and sets
that are iterated over are lists in the order of addresses; the others are functions.

Every query is a view of one relation as long as the edges were not listed before, or there are none
(`CallGraphObject.isOneRelation_iff`).
-/

set_option autoImplicit false
set_option relaxedAutoImplicit false

namespace Sipc

open Library

/-! ### The builder -/

/-- `CallGraphBuilder`. -/
structure CallGraphBuilder where
  cfun : Option ASTFunction
  graph : List (NodeId × List NodeId)
  mayCall : NodeId → Option (List NodeId)
  fromFunNameToASTFun : String → Option NodeId

/-- `getName` of the function at an address. -/
def ASTProgram.getName (p : ASTProgram) (f : NodeId) : String :=
  ((p.functions.find? fun fn ↦ fn.node = f).map ASTFunction.name).getD ""

namespace CallGraphBuilder

section Visit

variable (p : ASTProgram) (possible : ASTFunction → ASTExpr → List NodeId)

/-- The body of the loop of `visit(ASTFunAppExpr)`, beside `called`. -/
def addCall (cfun : ASTFunction) (b : CallGraphBuilder) (f : NodeId) : CallGraphBuilder where
  cfun := b.cfun
  graph := mapAt cfun.node [] (setInsert f) b.graph
  mayCall := b.mayCall
  fromFunNameToASTFun :=
    Function.update (Function.update b.fromFunNameToASTFun cfun.name (some cfun.node)) (p.getName f)
      (some f)

/-- `visit(ASTFunAppExpr)`. `possible` is `getPossibleFunctionsForExpr` of the analysis. -/
def visitFunApp (cfun : ASTFunction) (b : CallGraphBuilder) (node : NodeId) (function : ASTExpr) :
    CallGraphBuilder :=
  let called := (possible cfun function).foldl (fun s f ↦ setInsert f s) []
  let b := (possible cfun function).foldl (addCall p cfun) b
  { b with
    mayCall := if (b.mayCall node).isSome then b.mayCall
      else Function.update b.mayCall node (some called) }

/-- One call of the visitor. Before the first function, `cfun` is undefined. -/
def step (b : CallGraphBuilder) : VisitEvent → Option CallGraphBuilder
  | .visit (.function f) => some { b with cfun := some f }
  | .visit (.expr (.funAppExpr n function _)) => do
    let cfun ← b.cfun
    return visitFunApp p possible cfun b n function
  | _ => some b

/-- `CallGraphBuilder::build`. -/
def build : Option CallGraphBuilder :=
  p.accept.foldlM (step p possible) ⟨none, [], fun _ ↦ none, fun _ ↦ none⟩

end Visit

end CallGraphBuilder

/-! ### The object and its queries -/

/-- A `CallGraph` as it is stored. -/
structure CallGraphObject where
  vertices : List NodeId
  edges : List (NodeId × NodeId)
  callGraph : List (NodeId × List NodeId)
  fromFunNameToASTFuns : String → Option NodeId
  mayCall : NodeId → Option (List NodeId)

namespace CallGraphObject

/-- `CallGraph::build`, once the constraints are solved. -/
def build (p : ASTProgram) (possible : ASTFunction → ASTExpr → List NodeId) :
    Option CallGraphObject := do
  let cgb ← CallGraphBuilder.build p possible
  return ⟨p.functions.map ASTFunction.node, [], cgb.graph, cgb.fromFunNameToASTFun, cgb.mayCall⟩

section Queries

variable (name : NodeId → String) (cg : CallGraphObject)

/-- `getTotalVertices`. -/
def getTotalVertices : ℕ :=
  cg.vertices.length

/-- `getTotalEdges`. -/
def getTotalEdges : ℕ :=
  cg.callGraph.foldl (fun total pair ↦ pair.2.foldl (fun total _ ↦ total + 1) total) 0

/-- `getVertices`. -/
def getVertices : List NodeId :=
  cg.vertices

/-- `getEdges`: the edges are added to the vector, which is returned. -/
def getEdges : List (NodeId × NodeId) × CallGraphObject :=
  let edges := cg.callGraph.foldl
    (fun edges pair ↦ pair.2.foldl (fun edges dest ↦ edges ++ [(pair.1, dest)]) edges) cg.edges
  (edges, { cg with edges := edges })

/-- `getCalledFuns`: `operator[]` adds an application that is missing. -/
def getCalledFuns (e : NodeId) : List NodeId × CallGraphObject :=
  let called := (cg.mayCall e).getD []
  (called, { cg with mayCall := Function.update cg.mayCall e (some called) })

/-- `getCallees` of a function. -/
def getCallees (f : NodeId) : List NodeId :=
  (cg.callGraph.lookup f).getD []

/-- `getCallees` of a name. -/
def getCalleesOfName (caller : String) : List NodeId :=
  cg.callGraph.foldl
    (fun callees fn ↦ if name fn.1 = caller then cg.getCallees fn.1 else callees) []

/-- `getCallers` of a name. -/
def getCallersOfName (callee : String) : List String :=
  cg.callGraph.foldl
    (fun callers pair ↦ pair.2.foldl
      (fun callers callee' ↦ if name callee' = callee then setInsert (name pair.1) callers else callers)
      callers) []

/-- `getCallers` of a function. -/
def getCallers (f : NodeId) : List NodeId :=
  cg.callGraph.foldl (fun callers pair ↦ if f ∈ pair.2 then setInsert pair.1 callers else callers) []

/-- `existEdge`. -/
def existEdge (caller callee : String) : Bool × CallGraphObject :=
  let (edges, cg) := cg.getEdges
  (edges.any fun edge ↦ name edge.1 = caller ∧ name edge.2 = callee, cg)

/-- `getASTFun`; the null pointer that `operator[]` adds is no function. -/
def getASTFun (fName : String) : Option NodeId :=
  cg.fromFunNameToASTFuns fName

end Queries

/-- A query, with its arguments. -/
inductive Query
  | getTotalVertices | getTotalEdges | getVertices | getEdges
  | getCalledFuns (e : NodeId)
  | getCallees (f : NodeId)
  | getCalleesOfName (caller : String)
  | getCallersOfName (callee : String)
  | getCallers (f : NodeId)
  | existEdge (caller callee : String)
  | getASTFun (fName : String)

/-- What a query returns. -/
inductive Answer
  | number (n : ℕ)
  | functions (fs : List NodeId)
  | names (ss : List String)
  | edges (es : List (NodeId × NodeId))
  | truth (b : Bool)
  | function (f : Option NodeId)

/-- Ask a query: its answer, and the object afterwards. -/
def ask (name : NodeId → String) (cg : CallGraphObject) : Query → Answer × CallGraphObject
  | .getTotalVertices => (.number cg.getTotalVertices, cg)
  | .getTotalEdges => (.number cg.getTotalEdges, cg)
  | .getVertices => (.functions cg.getVertices, cg)
  | .getEdges => (.edges cg.getEdges.1, cg.getEdges.2)
  | .getCalledFuns e => (.functions (cg.getCalledFuns e).1, (cg.getCalledFuns e).2)
  | .getCallees f => (.functions (cg.getCallees f), cg)
  | .getCalleesOfName caller => (.functions (cg.getCalleesOfName name caller), cg)
  | .getCallersOfName callee => (.names (cg.getCallersOfName name callee), cg)
  | .getCallers f => (.functions (cg.getCallers f), cg)
  | .existEdge caller callee =>
    (.truth (cg.existEdge name caller callee).1, (cg.existEdge name caller callee).2)
  | .getASTFun fName => (.function (cg.getASTFun fName), cg)

/-- The object after the queries. -/
def after (name : NodeId → String) (cg : CallGraphObject) (queries : List Query) : CallGraphObject :=
  queries.foldl (fun cg q ↦ (cg.ask name q).2) cg

/-- The query goes through `getEdges`. -/
def Query.ListsEdges : Query → Prop
  | .getEdges | .existEdge _ _ => True
  | _ => False

/-! ### The relation behind the queries -/

variable {name : NodeId → String} {cg : CallGraphObject}

/-- The pairs of the map. -/
def pairs (cg : CallGraphObject) : List (NodeId × NodeId) :=
  cg.callGraph.flatMap fun pair ↦ pair.2.map fun dest ↦ (pair.1, dest)

/-- The map and the sets in it are in order. -/
structure InOrder (cg : CallGraphObject) : Prop where
  keys : KeysInOrder cg.callGraph
  sets : ∀ pair ∈ cg.callGraph, pair.2.Pairwise (· < ·)

theorem getEdges_fst (cg : CallGraphObject) : cg.getEdges.1 = cg.edges ++ cg.pairs := by
  have hinner : ∀ (a : NodeId) (s : List NodeId) (edges : List (NodeId × NodeId)),
      s.foldl (fun edges dest ↦ edges ++ [(a, dest)]) edges = edges ++ s.map fun dest ↦ (a, dest) := by
    intro a s
    induction s with
    | nil => exact fun edges ↦ (List.append_nil edges).symm
    | cons b s ih => exact fun edges ↦ by rw [List.foldl_cons, ih, List.map_cons, List.append_assoc]; rfl
  have houter : ∀ (m : List (NodeId × List NodeId)) (edges : List (NodeId × NodeId)),
      m.foldl (fun edges pair ↦ pair.2.foldl (fun edges dest ↦ edges ++ [(pair.1, dest)]) edges) edges =
        edges ++ m.flatMap fun pair ↦ pair.2.map fun dest ↦ (pair.1, dest) := by
    intro m
    induction m with
    | nil => exact fun edges ↦ (List.append_nil edges).symm
    | cons pair m ih =>
      intro edges
      rw [List.foldl_cons, hinner, ih, List.flatMap_cons, List.append_assoc]
  exact houter cg.callGraph cg.edges

theorem getTotalEdges_eq (cg : CallGraphObject) : cg.getTotalEdges = cg.pairs.length := by
  have hinner : ∀ (s : List NodeId) (total : ℕ),
      s.foldl (fun total _ ↦ total + 1) total = total + s.length := by
    intro s
    induction s with
    | nil => exact fun total ↦ rfl
    | cons b s ih =>
      intro total
      rw [List.foldl_cons, ih, List.length_cons]
      omega
  have houter : ∀ (m : List (NodeId × List NodeId)) (total : ℕ),
      m.foldl (fun total pair ↦ pair.2.foldl (fun total _ ↦ total + 1) total) total =
        total + (m.flatMap fun pair ↦ pair.2.map fun dest ↦ (pair.1, dest)).length := by
    intro m
    induction m with
    | nil => exact fun total ↦ rfl
    | cons pair m ih =>
      intro total
      rw [List.foldl_cons, hinner, ih, List.flatMap_cons, List.length_append, List.length_map,
        Nat.add_assoc]
  rw [getTotalEdges, houter, Nat.zero_add, pairs]

theorem mem_pairs {f g : NodeId} : (f, g) ∈ cg.pairs ↔ ∃ s, (f, s) ∈ cg.callGraph ∧ g ∈ s := by
  simp only [pairs, List.mem_flatMap, List.mem_map, Prod.mk.injEq]
  constructor
  · rintro ⟨⟨f', s⟩, hmem, g', hg, rfl, rfl⟩
    exact ⟨s, hmem, hg⟩
  · rintro ⟨s, hmem, hg⟩
    exact ⟨(f, s), hmem, g, hg, rfl, rfl⟩

theorem InOrder.nodup_pairs (h : cg.InOrder) : cg.pairs.Nodup := by
  rw [pairs, List.nodup_flatMap]
  refine ⟨fun pair hpair ↦ ?_, h.keys.imp fun hlt ↦ ?_⟩
  · have hnodup : pair.2.Nodup := (h.sets pair hpair).imp ne_of_lt
    exact hnodup.map fun x y heq ↦ (Prod.mk.inj heq).2
  · rw [Function.onFun, List.disjoint_left]
    intro e he he'
    obtain ⟨x, -, rfl⟩ := List.mem_map.1 he
    obtain ⟨y, -, heq⟩ := List.mem_map.1 he'
    exact absurd (Prod.mk.inj heq).1 (ne_of_gt hlt)

theorem InOrder.mem_getCallees (h : cg.InOrder) {f g : NodeId} :
    g ∈ cg.getCallees f ↔ (f, g) ∈ cg.pairs := by
  rw [mem_pairs, getCallees]
  cases hl : cg.callGraph.lookup f with
  | none =>
    refine iff_of_false List.not_mem_nil fun ⟨s, hs, _⟩ ↦ ?_
    rw [(lookup_eq_some_iff h.keys).2 hs] at hl
    cases hl
  | some s =>
    constructor
    · exact fun hg ↦ ⟨s, (lookup_eq_some_iff h.keys).1 hl, hg⟩
    · rintro ⟨s', hs', hg⟩
      rw [(lookup_eq_some_iff h.keys).2 hs'] at hl
      cases hl
      exact hg

/-- A function stands in the map only if it has callees there. -/
theorem mem_getCallers {f g : NodeId} : f ∈ cg.getCallers g ↔ (f, g) ∈ cg.pairs := by
  have hfold : ∀ (m : List (NodeId × List NodeId)) (acc : List NodeId),
      f ∈ m.foldl (fun callers pair ↦ if g ∈ pair.2 then setInsert pair.1 callers else callers) acc ↔
        f ∈ acc ∨ ∃ s, (f, s) ∈ m ∧ g ∈ s := by
    intro m
    induction m with
    | nil => simp
    | cons pair m ih =>
      intro acc
      obtain ⟨f', s⟩ := pair
      rw [List.foldl_cons, ih]
      by_cases hg : g ∈ s
      · rw [if_pos hg, mem_setInsert]
        simp only [List.mem_cons, Prod.mk.injEq]
        grind
      · rw [if_neg hg]
        simp only [List.mem_cons, Prod.mk.injEq]
        grind
  rw [mem_pairs, getCallers, hfold]
  exact or_iff_right List.not_mem_nil

theorem mem_getCallersOfName {caller callee : String} :
    caller ∈ cg.getCallersOfName name callee ↔
      ∃ f g, (f, g) ∈ cg.pairs ∧ name f = caller ∧ name g = callee := by
  have hinner : ∀ (a : NodeId) (s : List NodeId) (acc : List String),
      caller ∈ s.foldl (fun callers callee' ↦
        if name callee' = callee then setInsert (name a) callers else callers) acc ↔
        caller ∈ acc ∨ ∃ g ∈ s, name a = caller ∧ name g = callee := by
    intro a s
    induction s with
    | nil => simp
    | cons b s ih =>
      intro acc
      rw [List.foldl_cons, ih]
      by_cases hb : name b = callee
      · rw [if_pos hb, mem_setInsert]
        grind
      · rw [if_neg hb]
        grind
  have houter : ∀ (m : List (NodeId × List NodeId)) (acc : List String),
      caller ∈ m.foldl (fun callers pair ↦ pair.2.foldl (fun callers callee' ↦
        if name callee' = callee then setInsert (name pair.1) callers else callers) callers) acc ↔
        caller ∈ acc ∨ ∃ f s, (f, s) ∈ m ∧ ∃ g ∈ s, name f = caller ∧ name g = callee := by
    intro m
    induction m with
    | nil => simp
    | cons pair m ih =>
      intro acc
      rw [List.foldl_cons, ih, hinner]
      grind
  rw [getCallersOfName, houter]
  simp only [mem_pairs, List.not_mem_nil, false_or]
  grind

theorem existEdge_iff {caller callee : String} : (cg.existEdge name caller callee).1 ↔
    ∃ f g, (f, g) ∈ cg.edges ++ cg.pairs ∧ name f = caller ∧ name g = callee := by
  change (cg.getEdges.1.any fun edge ↦ name edge.1 = caller ∧ name edge.2 = callee) ↔ _
  rw [getEdges_fst, List.any_eq_true]
  simp

/-- A name that only one caller has stands for that caller. -/
theorem getCalleesOfName_eq {f : NodeId}
    (h : ∀ pair ∈ cg.callGraph, name pair.1 = name f → pair.1 = f) :
    cg.getCalleesOfName name (name f) = cg.getCallees f := by
  have hfold : ∀ (m : List (NodeId × List NodeId)) (acc : List NodeId),
      (∀ pair ∈ m, name pair.1 = name f → pair.1 = f) →
      m.foldl (fun callees fn ↦ if name fn.1 = name f then cg.getCallees fn.1 else callees) acc =
        if f ∈ m.map Prod.fst then cg.getCallees f else acc := by
    intro m
    induction m with
    | nil => exact fun acc _ ↦ rfl
    | cons pair m ih =>
      intro acc hm
      rw [List.foldl_cons, ih _ fun x hx ↦ hm x (List.mem_cons_of_mem pair hx), List.map_cons]
      by_cases hname : name pair.1 = name f
      · have hpair := hm pair List.mem_cons_self hname
        rw [if_pos hname, hpair, if_pos List.mem_cons_self]
        split_ifs <;> rfl
      · have hne : f ≠ pair.1 := fun heq ↦ hname (by rw [heq])
        rw [if_neg hname]
        simp only [List.mem_cons, hne, false_or]
  rw [getCalleesOfName, hfold _ _ h]
  split_ifs with hmem
  · rfl
  · have hnone : cg.callGraph.lookup f = none := by
      refine List.lookup_eq_none_iff.2 fun x hx ↦ bne_iff_ne.2 fun heq ↦ hmem ?_
      rw [heq]
      exact List.mem_map_of_mem hx
    rw [getCallees, hnone]
    rfl

/-! ### Asking in sequence -/

/-- What queries leave of an object: the edges were listed `k` times. -/
structure Listed (k : ℕ) (cg₀ cg : CallGraphObject) : Prop where
  vertices : cg.vertices = cg₀.vertices
  callGraph : cg.callGraph = cg₀.callGraph
  funs : cg.fromFunNameToASTFuns = cg₀.fromFunNameToASTFuns
  mayCall : ∀ e, (cg.mayCall e).getD [] = (cg₀.mayCall e).getD []
  edges : cg.edges = (List.replicate k cg₀.pairs).flatten

variable {cg₀ : CallGraphObject} {k : ℕ}

theorem Listed.pairs (h : Listed k cg₀ cg) : cg.pairs = cg₀.pairs := by
  rw [CallGraphObject.pairs, h.callGraph, CallGraphObject.pairs]

theorem Listed.getEdges (h : Listed k cg₀ cg) : Listed (k + 1) cg₀ cg.getEdges.2 where
  vertices := h.vertices
  callGraph := h.callGraph
  funs := h.funs
  mayCall := h.mayCall
  edges := by
    change cg.getEdges.1 = _
    rw [getEdges_fst, h.edges, h.pairs, List.replicate_succ', List.flatten_append,
      List.flatten_singleton]

/-- One query. -/
theorem Listed.ask (h : Listed k cg₀ cg) (name : NodeId → String) (q : Query) :
    (q.ListsEdges ∧ Listed (k + 1) cg₀ (cg.ask name q).2) ∨
      (¬ q.ListsEdges ∧ Listed k cg₀ (cg.ask name q).2) := by
  cases q with
  | getEdges | existEdge => exact Or.inl ⟨trivial, h.getEdges⟩
  | getCalledFuns e =>
    refine Or.inr ⟨id, h.vertices, h.callGraph, h.funs, fun e' ↦ ?_, h.edges⟩
    change (Function.update cg.mayCall e (some ((cg.mayCall e).getD [])) e').getD [] = _
    rw [Function.update_apply]
    split_ifs with heq
    · rw [heq]
      exact h.mayCall e
    · exact h.mayCall e'
  | _ => exact Or.inr ⟨id, h⟩

/-- A run of queries. -/
theorem Listed.after (name : NodeId → String) : ∀ (qs : List Query) {k : ℕ} {cg : CallGraphObject},
    Listed k cg₀ cg → ∃ k', Listed k' cg₀ (cg.after name qs) ∧
      (k' = 0 ↔ k = 0 ∧ ∀ q ∈ qs, ¬ q.ListsEdges)
  | [], k, _, h => ⟨k, h, by simp⟩
  | q :: qs, k, cg, h => by
    rcases h.ask name q with ⟨hq, h'⟩ | ⟨hq, h'⟩
    · obtain ⟨k', hk', hiff⟩ := Listed.after name qs h'
      refine ⟨k', hk', ?_⟩
      rw [hiff]
      simp [hq]
    · obtain ⟨k', hk', hiff⟩ := Listed.after name qs h'
      refine ⟨k', hk', ?_⟩
      rw [hiff]
      simp [hq]

theorem Listed.mem_edges (h : Listed k cg₀ cg) {e : NodeId × NodeId} :
    e ∈ cg.edges ++ cg.pairs ↔ e ∈ cg₀.pairs := by
  rw [h.edges, h.pairs, List.mem_append, List.mem_flatten]
  constructor
  · rintro (⟨l, hl, he⟩ | he)
    · rwa [List.eq_of_mem_replicate hl] at he
    · exact he
  · exact Or.inr

/-- Every query but `getEdges` answers as it does on the new object. -/
theorem Listed.answer (h : Listed k cg₀ cg) (h₀ : Listed 0 cg₀ cg₀) {q : Query}
    (hq : q ≠ .getEdges) : (cg.ask name q).1 = (cg₀.ask name q).1 := by
  cases q with
  | getEdges => exact absurd rfl hq
  | existEdge caller callee =>
    have hiff : (cg.existEdge name caller callee).1 ↔ (cg₀.existEdge name caller callee).1 := by
      simp only [existEdge_iff, h.mem_edges, h₀.mem_edges]
    exact congrArg Answer.truth (Bool.eq_iff_iff.2 hiff)
  | getCalledFuns e => exact congrArg Answer.functions (h.mayCall e)
  | getTotalVertices | getVertices =>
    simp only [CallGraphObject.ask, CallGraphObject.getTotalVertices, CallGraphObject.getVertices,
      h.vertices]
  | getASTFun => simp only [CallGraphObject.ask, CallGraphObject.getASTFun, h.funs]
  | _ =>
    simp only [CallGraphObject.ask, CallGraphObject.getTotalEdges, CallGraphObject.getCallees,
      CallGraphObject.getCalleesOfName, CallGraphObject.getCallersOfName, CallGraphObject.getCallers,
      h.callGraph]

end CallGraphObject

/-! ### What the builder records -/

namespace CallGraphBuilder

/-- The map holds the relation, with nonempty sets. -/
structure Relates (R : NodeId → NodeId → Prop) (m : List (NodeId × List NodeId)) : Prop where
  keys : KeysInOrder m
  sets : ∀ x s, m.lookup x = some s → s.Pairwise (· < ·) ∧ s ≠ []
  mem : ∀ x g, g ∈ (m.lookup x).getD [] ↔ R x g

theorem Relates.insert {R : NodeId → NodeId → Prop} {m : List (NodeId × List NodeId)}
    (h : Relates R m) (a g : NodeId) :
    Relates (fun x y ↦ R x y ∨ (x = a ∧ y = g)) (mapAt a [] (setInsert g) m) where
  keys := keysInOrder_mapAt h.keys
  sets x s hs := by
    rw [lookup_mapAt h.keys] at hs
    split_ifs at hs with hx
    · cases hs
      refine ⟨pairwise_setInsert ?_, List.ne_nil_of_mem (mem_setInsert.2 (Or.inl rfl))⟩
      cases hl : m.lookup a with
      | none => exact List.Pairwise.nil
      | some s => exact (h.sets a s hl).1
    · exact h.sets x s hs
  mem x y := by
    rw [lookup_mapAt h.keys]
    split_ifs with hx
    · rw [Option.getD_some, mem_setInsert, h.mem, hx]
      tauto
    · rw [h.mem]
      tauto

theorem Relates.congr {R R' : NodeId → NodeId → Prop} {m : List (NodeId × List NodeId)}
    (h : Relates R m) (hR : ∀ x y, R x y ↔ R' x y) : Relates R' m :=
  ⟨h.keys, h.sets, fun x y ↦ (h.mem x y).trans (hR x y)⟩

variable {p : ASTProgram} {possible : ASTFunction → ASTExpr → List NodeId}

theorem foldl_addCall (f : ASTFunction) : ∀ (gs : List NodeId) {b : CallGraphBuilder}
    {R : NodeId → NodeId → Prop}, Relates R b.graph →
    Relates (fun x y ↦ R x y ∨ (x = f.node ∧ y ∈ gs)) (gs.foldl (addCall p f) b).graph ∧
      (gs.foldl (addCall p f) b).cfun = b.cfun ∧ (gs.foldl (addCall p f) b).mayCall = b.mayCall
  | [], b, R, h => ⟨h.congr fun x y ↦ by simp, rfl, rfl⟩
  | g :: gs, b, R, h => by
    obtain ⟨hgraph, hcfun, hcall⟩ := foldl_addCall f gs (b := addCall p f b g) (h.insert f.node g)
    refine ⟨hgraph.congr fun x y ↦ ?_, hcfun, hcall⟩
    rw [List.mem_cons]
    tauto

theorem mem_foldl_setInsert (x : NodeId) : ∀ (gs s : List NodeId),
    x ∈ gs.foldl (fun s f ↦ setInsert f s) s ↔ x ∈ s ∨ x ∈ gs
  | [], s => by simp
  | g :: gs, s => by
    rw [List.foldl_cons, mem_foldl_setInsert x gs, mem_setInsert, List.mem_cons]
    tauto

/-- An application, with the function it is in and the function it applies. -/
structure CallSite where
  caller : ASTFunction
  node : NodeId
  function : ASTExpr

/-- The builder has seen the call sites. -/
structure Records (possible : ASTFunction → ASTExpr → List NodeId) (sites : List CallSite)
    (b : CallGraphBuilder) : Prop where
  graph : Relates (fun x g ↦ ∃ c ∈ sites, c.caller.node = x ∧ g ∈ possible c.caller c.function)
    b.graph
  called : ∀ c ∈ sites, ∀ g, g ∈ (b.mayCall c.node).getD [] ↔ g ∈ possible c.caller c.function
  other : ∀ n, (∀ c ∈ sites, c.node ≠ n) → b.mayCall n = none

theorem Records.addSite {sites : List CallSite} {b : CallGraphBuilder}
    (h : Records possible sites b) {c : CallSite} (hnew : ∀ c' ∈ sites, c'.node ≠ c.node) :
    Records possible (sites ++ [c]) (visitFunApp p possible c.caller b c.node c.function) := by
  obtain ⟨hgraph, -, hcall⟩ := foldl_addCall (p := p) c.caller (possible c.caller c.function) h.graph
  have hmay : (visitFunApp p possible c.caller b c.node c.function).mayCall =
      Function.update b.mayCall c.node (some ((possible c.caller c.function).foldl
        (fun s f ↦ setInsert f s) [])) := by
    unfold visitFunApp
    dsimp only
    rw [hcall, h.other c.node hnew]
    rfl
  refine ⟨hgraph.congr fun x g ↦ ?_, fun c' hc' g ↦ ?_, fun n hn ↦ ?_⟩
  · simp only [List.mem_append, List.mem_singleton]
    grind
  · rw [hmay]
    rcases List.mem_append.1 hc' with hc' | hc'
    · rw [Function.update_of_ne (hnew c' hc')]
      exact h.called c' hc' g
    · rw [List.mem_singleton.1 hc', Function.update_self, Option.getD_some, mem_foldl_setInsert]
      exact or_iff_right List.not_mem_nil
  · rw [hmay, Function.update_of_ne (hn c (by simp)).symm]
    exact h.other n fun c' hc' ↦ hn c' (List.mem_append_left _ hc')

/-- The call site of a call of the visitor. -/
def siteOf (f : ASTFunction) : VisitEvent → Option CallSite
  | .visit (.expr (.funAppExpr n e _)) => some ⟨f, n, e⟩
  | _ => none

/-- The call sites in a function. -/
def sitesIn (f : ASTFunction) : List CallSite :=
  f.innerEvents.filterMap (siteOf f)

theorem Records.foldlM_inner (f : ASTFunction) : ∀ (evs : List VisitEvent) {sites : List CallSite}
    {b : CallGraphBuilder}, (∀ ev ∈ evs, ¬ ev.OfFunction) → b.cfun = some f →
    Records possible sites b →
    ((sites ++ evs.filterMap (siteOf f)).map CallSite.node).Nodup →
    ∃ b', evs.foldlM (step p possible) b = some b' ∧
      Records possible (sites ++ evs.filterMap (siteOf f)) b'
  | [], sites, b, _, _, h, _ => ⟨b, rfl, by simpa using h⟩
  | ev :: evs, sites, b, hev, hf, h, hnodup => by
    have hrest : ∀ e ∈ evs, ¬ e.OfFunction := fun e he ↦ hev e (List.mem_cons_of_mem ev he)
    cases hsite : siteOf f ev with
    | none =>
      have hstep : step p possible b ev = some b := by
        unfold step
        split
        · exact absurd trivial (hev _ List.mem_cons_self)
        · cases hsite
        · rfl
      rw [List.filterMap_cons_none hsite] at hnodup ⊢
      obtain ⟨b', hb', hr⟩ := Records.foldlM_inner f evs hrest hf h hnodup
      exact ⟨b', by rw [List.foldlM_cons, hstep]; exact hb', hr⟩
    | some c =>
      have hsites : sites ++ (ev :: evs).filterMap (siteOf f) =
          (sites ++ [c]) ++ evs.filterMap (siteOf f) := by
        rw [List.filterMap_cons_some hsite, List.append_assoc]
        rfl
      rw [hsites] at hnodup ⊢
      obtain ⟨n, e, as, rfl, rfl⟩ : ∃ n e as, ev = .visit (.expr (.funAppExpr n e as)) ∧
          (⟨f, n, e⟩ : CallSite) = c := by
        unfold siteOf at hsite
        split at hsite
        · exact ⟨_, _, _, rfl, Option.some.inj hsite⟩
        · cases hsite
      have hnew : ∀ c' ∈ sites, c'.node ≠ n := by
        rw [List.map_append, List.map_append] at hnodup
        have hdisj := (List.nodup_append.1 (List.nodup_append.1 hnodup).1).2.2
        exact fun c' hc' ↦ hdisj _ (List.mem_map_of_mem hc') _ (List.mem_singleton_self n)
      have hstep : step p possible b (.visit (.expr (.funAppExpr n e as))) =
          some (visitFunApp p possible f b n e) := by
        rw [step, hf]
        rfl
      have hvisit := h.addSite (p := p) (c := ⟨f, n, e⟩) hnew
      have hcfun : (visitFunApp p possible f b n e).cfun = some f :=
        (foldl_addCall (p := p) f (possible f e) h.graph).2.1.trans hf
      obtain ⟨b', hb', hr⟩ := Records.foldlM_inner f evs hrest hcfun hvisit hnodup
      exact ⟨b', by rw [List.foldlM_cons, hstep]; exact hb', hr⟩

theorem Records.foldlM_functions : ∀ (fs : List ASTFunction) {sites : List CallSite}
    {b : CallGraphBuilder}, Records possible sites b →
    ((sites ++ fs.flatMap sitesIn).map CallSite.node).Nodup →
    ∃ b', (fs.flatMap ASTFunction.accept).foldlM (step p possible) b = some b' ∧
      Records possible (sites ++ fs.flatMap sitesIn) b'
  | [], sites, b, h, _ => ⟨b, rfl, by simpa using h⟩
  | f :: fs, sites, b, h, hnodup => by
    have hsites : sites ++ (f :: fs).flatMap sitesIn = (sites ++ sitesIn f) ++ fs.flatMap sitesIn := by
      rw [List.flatMap_cons, List.append_assoc]
    rw [hsites] at hnodup ⊢
    have hstart : Records possible sites { b with cfun := some f } := ⟨h.graph, h.called, h.other⟩
    have hnodup₁ : ((sites ++ sitesIn f).map CallSite.node).Nodup := by
      rw [List.map_append] at hnodup
      exact (List.nodup_append.1 hnodup).1
    obtain ⟨b₁, hb₁, hr₁⟩ := Records.foldlM_inner (p := p) f f.innerEvents
      f.not_ofFunction_innerEvents rfl hstart hnodup₁
    obtain ⟨b', hb', hr'⟩ := Records.foldlM_functions fs hr₁ hnodup
    refine ⟨b', ?_, hr'⟩
    have hf : f.accept.foldlM (step p possible) b = some b₁ := by
      rw [f.accept_eq]
      change (f.innerEvents ++ [VisitEvent.endVisit (.function f)]).foldlM (step p possible)
        { b with cfun := some f } = _
      rw [List.foldlM_append, hb₁]
      rfl
    rw [List.flatMap_cons, List.foldlM_append, hf]
    exact hb'

theorem sublist_visitedNodes (f : ASTFunction) : ∀ evs : List VisitEvent,
    ((evs.filterMap (siteOf f)).map CallSite.node).Sublist (visitedNodes evs)
  | [] => List.Sublist.refl _
  | .endVisit n :: evs => by
    rw [List.filterMap_cons_none rfl]
    exact sublist_visitedNodes f evs
  | .visit n :: evs => by
    have ih := sublist_visitedNodes f evs
    cases hsite : siteOf f (.visit n) with
    | none =>
      rw [List.filterMap_cons_none hsite]
      exact ih.cons n.node
    | some c =>
      rw [List.filterMap_cons_some hsite, List.map_cons]
      have hnode : c.node = n.node := by
        unfold siteOf at hsite
        split at hsite
        next heq =>
          cases heq
          cases hsite
          rfl
        next => cases hsite
      rw [hnode]
      exact ih.cons_cons n.node

theorem nodup_sites (p : ASTProgram) :
    ((p.functions.flatMap sitesIn).map CallSite.node).Nodup := by
  refine p.distinct.sublist ?_
  generalize p.functions = fs
  induction fs with
  | nil => exact List.Sublist.refl _
  | cons f fs ih =>
    rw [List.flatMap_cons, List.map_append, List.flatMap_cons, visitedNodes, List.filterMap_append]
    refine List.Sublist.append ((sublist_visitedNodes f f.innerEvents).trans ?_) ih
    have hinner : f.innerEvents.Sublist f.accept := by
      rw [f.accept_eq]
      exact ((List.sublist_append_left _ _).cons _).cons _ |>.cons _
    exact hinner.filterMap _

/-- The builder runs to the end and records every call site. -/
theorem exists_build (p : ASTProgram) (possible : ASTFunction → ASTExpr → List NodeId) :
    ∃ b, build p possible = some b ∧ Records possible (p.functions.flatMap sitesIn) b := by
  have hempty : Records possible [] ⟨none, [], fun _ ↦ none, fun _ ↦ none⟩ := by
    refine ⟨⟨List.Pairwise.nil, ?_, ?_⟩, ?_, fun _ _ ↦ rfl⟩
    · intro x s h
      cases h
    · simp
    · simp
  exact Records.foldlM_functions p.functions hempty (nodup_sites p)

theorem mem_sitesIn {f : ASTFunction} {c : CallSite} :
    c ∈ sitesIn f ↔ c.caller = f ∧ ∃ as, f.HasCall c.node c.function as := by
  rw [sitesIn, List.mem_filterMap]
  constructor
  · rintro ⟨ev, hev, hsite⟩
    unfold siteOf at hsite
    split at hsite
    next n e as =>
      cases hsite
      exact ⟨rfl, as, CFAnalyzer.visit_expr_mem_iff.2 hev⟩
    next => cases hsite
  · rintro ⟨hcaller, as, hcall⟩
    refine ⟨_, CFAnalyzer.visit_expr_mem_iff.1 hcall, ?_⟩
    rw [← hcaller]
    rfl

end CallGraphBuilder

/-! ### The call graph of a program -/

/-- `getPossibleFunctionsForExpr` of the analysis, once the solver has its constraints. -/
def CFAnalyzer.possibleFunctions (p : ASTProgram) (st : SymbolTable) (s : CubicSolver NodeId NodeId)
    (f : ASTFunction) (e : ASTExpr) : List NodeId :=
  s.getPossibleFunctionsForExpr (p.functions.map ASTFunction.node) (st.canonical f.decl.node e)

namespace CallGraphObject

/-- `CallGraph::build`. -/
def ofProgram (p : ASTProgram) (st : SymbolTable) (iter : IterationOrder) (fuel : ℕ) :
    Option CallGraphObject := do
  let calls ← CFAnalyzer.analyze p st
  let s ← CubicSolver.solveConstraints (p.functions.map ASTFunction.node) iter fuel calls
  build p (CFAnalyzer.possibleFunctions p st s)

/-- The queries on `cg` are views of one relation, and answer as those on `cg₀`. -/
structure IsOneRelation (p : ASTProgram) (cg₀ cg : CallGraphObject) : Prop where
  nodup : cg.getEdges.1.Nodup
  length : cg.getEdges.1.length = cg.getTotalEdges
  functions : ∀ e ∈ cg.getEdges.1, ∃ f ∈ p.functions, ∃ g ∈ p.functions, e = (f.node, g.node)
  views : ∀ f ∈ p.functions, ∀ g ∈ p.functions,
    [(f.node, g.node) ∈ cg.getEdges.1, g.node ∈ cg.getCallees f.node,
      g.node ∈ cg.getCalleesOfName p.getName f.name, f.node ∈ cg.getCallers g.node,
      f.name ∈ cg.getCallersOfName p.getName g.name, (cg.existEdge p.getName f.name g.name).1 = true,
      ∃ n e as, f.HasCall n e as ∧ g.node ∈ (cg.getCalledFuns n).1].TFAE
  answers : ∀ q, (cg.ask p.getName q).1 = (cg₀.ask p.getName q).1

section Program

variable {p : ASTProgram} {st : SymbolTable} {cg₀ cg : CallGraphObject}

theorem getName_node {f : ASTFunction} (hf : f ∈ p.functions) : p.getName f.node = f.name := by
  rw [ASTProgram.getName]
  cases hfind : p.functions.find? fun fn ↦ fn.node = f.node with
  | none => exact absurd (List.find?_eq_none.1 hfind f hf) (by simp)
  | some g =>
    have hnode : g.node = f.node := by simpa using List.find?_some hfind
    rw [p.function_inj (List.mem_of_find?_eq_some hfind) hf hnode]
    rfl

/-- What is known of a call graph that was built. -/
structure Built (p : ASTProgram) (cg : CallGraphObject) : Prop where
  inOrder : cg.InOrder
  edges : cg.edges = []
  mem_pairs : ∀ x y, (x, y) ∈ cg.pairs ↔ ∃ f ∈ p.functions, f.node = x ∧
    ∃ n e as, f.HasCall n e as ∧ y ∈ (cg.mayCall n).getD []
  functions : ∀ n, ∀ g ∈ (cg.mayCall n).getD [], ∃ fn ∈ p.functions, fn.node = g
  callers : ∀ pair ∈ cg.callGraph, ∃ fn ∈ p.functions, fn.node = pair.1

theorem mem_sites {c : CallGraphBuilder.CallSite} :
    c ∈ p.functions.flatMap CallGraphBuilder.sitesIn ↔
      c.caller ∈ p.functions ∧ ∃ as, c.caller.HasCall c.node c.function as := by
  rw [List.mem_flatMap]
  constructor
  · rintro ⟨f, hf, hc⟩
    obtain ⟨rfl, hcall⟩ := CallGraphBuilder.mem_sitesIn.1 hc
    exact ⟨hf, hcall⟩
  · rintro ⟨hf, hcall⟩
    exact ⟨_, hf, CallGraphBuilder.mem_sitesIn.2 ⟨rfl, hcall⟩⟩

/-- An application may call the functions that are possible for what it applies. -/
theorem mem_mayCall_of_build {possible : ASTFunction → ASTExpr → List NodeId}
    (h : build p possible = some cg) {f : ASTFunction} (hf : f ∈ p.functions) {n : NodeId}
    {e : ASTExpr} {as : List ASTExpr} (hcall : f.HasCall n e as) (y : NodeId) :
    y ∈ (cg.mayCall n).getD [] ↔ y ∈ possible f e := by
  obtain ⟨b, hb, hr⟩ := CallGraphBuilder.exists_build p possible
  rw [build, hb] at h
  rw [← Option.some.inj h]
  exact hr.called ⟨f, n, e⟩ (mem_sites.2 ⟨hf, as, hcall⟩) y

theorem built_of_build {possible : ASTFunction → ASTExpr → List NodeId}
    (hpossible : ∀ f e, ∀ g ∈ possible f e, ∃ fn ∈ p.functions, fn.node = g)
    (h : build p possible = some cg) : Built p cg := by
  obtain ⟨b, hb, hr⟩ := CallGraphBuilder.exists_build p possible
  have hcg : cg = ⟨p.functions.map ASTFunction.node, [], b.graph, b.fromFunNameToASTFun,
      b.mayCall⟩ := by
    rw [build, hb] at h
    exact (Option.some.inj h).symm
  have hkeys : KeysInOrder cg.callGraph := by
    rw [hcg]
    exact hr.graph.keys
  have horder : cg.InOrder := by
    refine ⟨hkeys, fun pair hpair ↦ ?_⟩
    have hl := (lookup_eq_some_iff hkeys).2 hpair
    rw [hcg] at hl
    exact (hr.graph.sets _ _ hl).1
  have hmem : ∀ x y, (x, y) ∈ cg.pairs ↔ ∃ f ∈ p.functions, f.node = x ∧
      ∃ n e as, f.HasCall n e as ∧ y ∈ possible f e := by
    intro x y
    rw [← horder.mem_getCallees, getCallees, hcg]
    refine (hr.graph.mem x y).trans ⟨?_, ?_⟩
    · rintro ⟨c, hc, hx, hy⟩
      obtain ⟨hf, as, hcall⟩ := mem_sites.1 hc
      exact ⟨c.caller, hf, hx, c.node, c.function, as, hcall, hy⟩
    · rintro ⟨f, hf, hx, n, e, as, hcall, hy⟩
      exact ⟨⟨f, n, e⟩, mem_sites.2 ⟨hf, as, hcall⟩, hx, hy⟩
  refine ⟨horder, by rw [hcg], fun x y ↦ ?_, fun n g hg ↦ ?_, fun pair hpair ↦ ?_⟩
  · rw [hmem]
    constructor
    · rintro ⟨f, hf, hx, n, e, as, hcall, hy⟩
      exact ⟨f, hf, hx, n, e, as, hcall, (mem_mayCall_of_build h hf hcall y).2 hy⟩
    · rintro ⟨f, hf, hx, n, e, as, hcall, hy⟩
      exact ⟨f, hf, hx, n, e, as, hcall, (mem_mayCall_of_build h hf hcall y).1 hy⟩
  · by_cases hsite : ∃ c ∈ p.functions.flatMap CallGraphBuilder.sitesIn, c.node = n
    · obtain ⟨c, hc, rfl⟩ := hsite
      rw [hcg] at hg
      exact hpossible _ _ g ((hr.called c hc g).1 hg)
    · rw [hcg] at hg
      push Not at hsite
      change g ∈ (b.mayCall n).getD [] at hg
      rw [hr.other n hsite] at hg
      cases hg
  · -- a key was added together with a callee
    have hl := (lookup_eq_some_iff hkeys).2 hpair
    obtain ⟨y, ys, hys⟩ := List.exists_cons_of_ne_nil (hr.graph.sets pair.1 pair.2 (by rw [← hl, hcg])).2
    have hy : (pair.1, y) ∈ cg.pairs := CallGraphObject.mem_pairs.2 ⟨pair.2, hpair, by simp [hys]⟩
    obtain ⟨f, hf, hx, -⟩ := (hmem _ _).1 hy
    exact ⟨f, hf, hx⟩

theorem vertices_of_ofProgram {iter : IterationOrder} {fuel : ℕ}
    (h : ofProgram p st iter fuel = some cg) : cg.vertices = p.functions.map ASTFunction.node := by
  obtain ⟨calls, -, h⟩ := Option.bind_eq_some_iff.1 h
  obtain ⟨s, -, h⟩ := Option.bind_eq_some_iff.1 h
  obtain ⟨b, -, h⟩ := Option.bind_eq_some_iff.1 h
  rw [← Option.some.inj h]

theorem built_of_ofProgram {iter : IterationOrder} {fuel : ℕ}
    (h : ofProgram p st iter fuel = some cg) : Built p cg := by
  obtain ⟨calls, -, h⟩ := Option.bind_eq_some_iff.1 h
  obtain ⟨s, -, h⟩ := Option.bind_eq_some_iff.1 h
  refine built_of_build (fun f e g hg ↦ ?_) h
  unfold CFAnalyzer.possibleFunctions CubicSolver.getPossibleFunctionsForExpr at hg
  split at hg
  · cases hg
  · obtain ⟨fn, hfn, rfl⟩ := List.mem_map.1 (List.mem_filter.1 hg).1
    exact ⟨fn, hfn, rfl⟩

/-- The call graph has the sets of a solution of the constraints of the analysis. -/
theorem exists_isSolution (h : st.Describes p) {iter : IterationOrder} {fuel : ℕ}
    (hcg : ofProgram p st iter fuel = some cg) : ∃ S,
      SetConstraint.IsSolution (p.functions.flatMap (CFAnalyzer.ofFunction p st)) S ∧
      ∀ f ∈ p.functions, ∀ n e as, f.HasCall n e as → ∀ y, S (p.denoted f e) y →
        y ∈ (cg.getCalledFuns n).1 ∧ y ∈ cg.getCallees f.node := by
  have hbuilt := built_of_ofProgram hcg
  obtain ⟨calls, hanalyze, hcg⟩ := Option.bind_eq_some_iff.1 hcg
  rw [CFAnalyzer.analyze_eq] at hanalyze
  obtain rfl := Option.some.inj hanalyze
  obtain ⟨s, hs, hbuild⟩ := Option.bind_eq_some_iff.1 hcg
  have hsolution := CubicSolver.isSolution_getPossibleFunctionsForExpr (fun c hc ↦ ?_) hs
  · refine ⟨_, hsolution, fun f hf n e as hcall y hy ↦ ?_⟩
    have hmay : y ∈ (cg.mayCall n).getD [] := by
      rw [mem_mayCall_of_build hbuild hf hcall, CFAnalyzer.possibleFunctions,
        CFAnalyzer.canonical_eq h hf]
      exact hy
    exact ⟨hmay, hbuilt.inOrder.mem_getCallees.2
      ((hbuilt.mem_pairs f.node y).2 ⟨f, hf, rfl, n, e, as, hcall, hmay⟩)⟩
  · -- the constraints speak of the functions of the program
    obtain ⟨f, hf, hc⟩ := List.mem_flatMap.1 hc
    cases CFAnalyzer.flow_of_mem h hf hc with
    | function hf | actual _ _ hf | result _ _ hf =>
      intro x hx
      rw [List.mem_singleton.1 hx]
      exact List.mem_map_of_mem hf
    | assign => exact fun x hx ↦ by cases hx

/-- The views agree however often the edges were listed. -/
theorem Built.views (h : Built p cg₀) (hnames : (p.functions.map ASTFunction.name).Nodup) {k : ℕ}
    (hk : Listed k cg₀ cg) {f g : ASTFunction} (hf : f ∈ p.functions) (hg : g ∈ p.functions) :
    [(f.node, g.node) ∈ cg.getEdges.1, g.node ∈ cg.getCallees f.node,
      g.node ∈ cg.getCalleesOfName p.getName f.name, f.node ∈ cg.getCallers g.node,
      f.name ∈ cg.getCallersOfName p.getName g.name, (cg.existEdge p.getName f.name g.name).1 = true,
      ∃ n e as, f.HasCall n e as ∧ g.node ∈ (cg.getCalledFuns n).1].TFAE := by
  have horder : cg.InOrder := ⟨by rw [hk.callGraph]; exact h.inOrder.keys,
    by rw [hk.callGraph]; exact h.inOrder.sets⟩
  have hinj : ∀ x ∈ p.functions, ∀ y ∈ p.functions, x.name = y.name → x = y :=
    fun x hx y hy ↦ List.inj_on_of_nodup_map hnames hx hy
  -- the addresses in a pair are those of functions
  have hpair : ∀ x y, (x, y) ∈ cg₀.pairs →
      ∃ f' ∈ p.functions, ∃ g' ∈ p.functions, x = f'.node ∧ y = g'.node := by
    intro x y hxy
    obtain ⟨f', hf', hx, n, e, as, -, hy⟩ := (h.mem_pairs x y).1 hxy
    obtain ⟨g', hg', hy'⟩ := h.functions n y hy
    exact ⟨f', hf', g', hg', hx.symm, hy'.symm⟩
  have hbyName : (∃ x y, (x, y) ∈ cg₀.pairs ∧ p.getName x = f.name ∧ p.getName y = g.name) ↔
      (f.node, g.node) ∈ cg₀.pairs := by
    constructor
    · rintro ⟨x, y, hxy, hx, hy⟩
      obtain ⟨f', hf', g', hg', rfl, rfl⟩ := hpair x y hxy
      rw [getName_node hf'] at hx
      rw [getName_node hg'] at hy
      rwa [← hinj f' hf' f hf hx, ← hinj g' hg' g hg hy]
    · exact fun hfg ↦ ⟨_, _, hfg, getName_node hf, getName_node hg⟩
  have hedges : (f.node, g.node) ∈ cg.getEdges.1 ↔ (f.node, g.node) ∈ cg₀.pairs := by
    rw [getEdges_fst, hk.mem_edges]
  have hcallees : g.node ∈ cg.getCallees f.node ↔ (f.node, g.node) ∈ cg₀.pairs := by
    rw [horder.mem_getCallees, hk.pairs]
  have hofName : cg.getCalleesOfName p.getName f.name = cg.getCallees f.node := by
    rw [← getName_node hf]
    refine getCalleesOfName_eq fun pair hpr hname ↦ ?_
    rw [hk.callGraph] at hpr
    obtain ⟨f', hf', hf'pair⟩ := h.callers pair hpr
    rw [← hf'pair, getName_node hf', getName_node hf] at hname
    rw [← hf'pair, hinj f' hf' f hf hname]
  have hcallers : f.node ∈ cg.getCallers g.node ↔ (f.node, g.node) ∈ cg₀.pairs := by
    rw [mem_getCallers, hk.pairs]
  have hcallersOfName : f.name ∈ cg.getCallersOfName p.getName g.name ↔
      (f.node, g.node) ∈ cg₀.pairs := by
    rw [mem_getCallersOfName, hk.pairs, hbyName]
  have hexist : (cg.existEdge p.getName f.name g.name).1 = true ↔ (f.node, g.node) ∈ cg₀.pairs := by
    rw [existEdge_iff]
    simp only [hk.mem_edges]
    exact hbyName
  have hcalled : (∃ n e as, f.HasCall n e as ∧ g.node ∈ (cg.getCalledFuns n).1) ↔
      (f.node, g.node) ∈ cg₀.pairs := by
    rw [h.mem_pairs]
    constructor
    · rintro ⟨n, e, as, hcall, hgn⟩
      exact ⟨f, hf, rfl, n, e, as, hcall, by rw [← hk.mayCall]; exact hgn⟩
    · rintro ⟨f', hf', hnode, n, e, as, hcall, hgn⟩
      obtain rfl := p.function_inj hf' hf hnode
      exact ⟨n, e, as, hcall, by rw [← hk.mayCall] at hgn; exact hgn⟩
  rw [hofName]
  refine List.tfae_of_forall ((f.node, g.node) ∈ cg₀.pairs) _ ?_
  simp only [List.forall_mem_cons]
  exact ⟨hedges, hcallees, hcallees, hcallers, hcallersOfName, hexist, hcalled, List.forall_mem_nil _⟩

/-- A call graph that was just built. -/
theorem Built.listed (h : Built p cg₀) : Listed 0 cg₀ cg₀ :=
  ⟨rfl, rfl, rfl, fun _ ↦ rfl, h.edges⟩

/-- After any queries, the answers are views of one relation and are the first ones if and only if the
edges were not listed before or there are none. -/
theorem isOneRelation_iff (hb : SymbolTable.build p = .ok st) {iter : IterationOrder} {fuel : ℕ}
    (h : ofProgram p st iter fuel = some cg₀) (qs : List Query) :
    IsOneRelation p cg₀ (cg₀.after p.getName qs) ↔
      (∀ q ∈ qs, ¬ q.ListsEdges) ∨ cg₀.getTotalEdges = 0 := by
  have hbuilt := built_of_ofProgram h
  obtain ⟨k, hk, hzero⟩ := hbuilt.listed.after p.getName qs
  rw [and_iff_right rfl] at hzero
  have hedges : (cg₀.after p.getName qs).getEdges.1 =
      (List.replicate (k + 1) cg₀.pairs).flatten := by
    rw [getEdges_fst, hk.edges, hk.pairs, List.replicate_succ', List.flatten_append,
      List.flatten_singleton]
  rw [← hzero, getTotalEdges_eq, List.length_eq_zero_iff]
  constructor
  · intro hrel
    by_contra hcon
    push Not at hcon
    obtain ⟨hk0, hne⟩ := hcon
    have hlength := hrel.length
    rw [hedges, getTotalEdges_eq, hk.pairs, List.length_flatten, List.map_replicate,
      List.sum_replicate_nat] at hlength
    have hpos : 0 < cg₀.pairs.length := List.length_pos_of_ne_nil hne
    have := Nat.eq_of_mul_eq_mul_right hpos (hlength.trans (Nat.one_mul _).symm)
    omega
  · intro hcond
    have hsame : (cg₀.after p.getName qs).getEdges.1 = cg₀.pairs := by
      rw [hedges]
      rcases hcond with rfl | hnil
      · simp
      · simp [hnil]
    refine ⟨?_, ?_, fun e he ↦ ?_, fun f hf g hg ↦
      hbuilt.views (SymbolTable.build_spec hb).names_nodup hk hf hg, fun q ↦ ?_⟩
    · rw [hsame]
      exact hbuilt.inOrder.nodup_pairs
    · rw [hsame, getTotalEdges_eq, hk.pairs]
    · rw [hsame] at he
      obtain ⟨f, hf, hx, n, -, -, -, hy⟩ := (hbuilt.mem_pairs e.1 e.2).1 he
      obtain ⟨g, hg, hgy⟩ := hbuilt.functions n _ hy
      exact ⟨f, hf, g, hg, by rw [hx, hgy]⟩
    · by_cases hq : q = .getEdges
      · rw [hq]
        change Answer.edges _ = Answer.edges _
        rw [hsame, getEdges_fst, hbuilt.edges, List.nil_append]
      · exact hk.answer hbuilt.listed hq

end Program

/-- Asking for callees leaves the relation of `callOneProgram` as it is. -/
theorem isOneRelation_callOne : ∃ st cg, SymbolTable.build callOneProgram = .ok st ∧
    ofProgram callOneProgram st .creation 9 = some cg ∧ IsOneRelation callOneProgram cg
      (cg.after callOneProgram.getName [.getCallees 5, .getTotalEdges]) := by
  refine ⟨_, _, rfl, (Option.some_get (by decide)).symm,
    (isOneRelation_iff rfl (Option.some_get (by decide)).symm _).2 (Or.inl ?_)⟩
  simp [Query.ListsEdges]

/-- The one edge of `callOneProgram` is listed twice the second time. -/
theorem not_isOneRelation_callOne : ∃ st cg, SymbolTable.build callOneProgram = .ok st ∧
    ofProgram callOneProgram st .creation 9 = some cg ∧
    ¬ IsOneRelation callOneProgram cg (cg.after callOneProgram.getName [.getEdges]) := by
  refine ⟨_, _, rfl, (Option.some_get (by decide)).symm, fun h ↦ absurd h.length ?_⟩
  decide

end CallGraphObject

end Sipc
