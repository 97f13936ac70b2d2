import Sipc.Frontend.Shape
import Sipc.Frontend.SyntaxTree

/-!
# The graph of the syntax tree

`frontend/prettyprint/ASTVisualizer` walks the tree with the iterator of `frontend/iterators` and writes
a vertex for every node it meets. The parent of a node is on the top of a stack, onto which every node
is pushed once for each of its children. The graph that is written is the tree
(`ASTVisualizer.draws_tree`).
-/

set_option autoImplicit false
set_option relaxedAutoImplicit false

namespace Sipc

open Library

/-! ### The text of a node -/

mutual

/-- `print` of the expressions. -/
def ASTExpr.print : ASTExpr → String
  | .numberExpr _ val => toString val.toInt
  | .boolExpr _ val => if val then "true" else "false"
  | .inputExpr _ => "input"
  | .nullExpr _ => "null"
  | .variableExpr _ name => name
  | .binaryExpr _ op left right =>
    if op = .and ∨ op = .or then "(" ++ left.print ++ " " ++ op.text ++ " " ++ right.print ++ ")"
    else "(" ++ left.print ++ op.text ++ right.print ++ ")"
  | .notExpr _ arg => "(not " ++ arg.print ++ ")"
  | .negExpr _ arg => "-(" ++ arg.print ++ ")"
  | .funAppExpr _ function actuals =>
    function.print ++ "(" ++ ", ".intercalate (ASTExpr.printList actuals) ++ ")"
  | .allocExpr _ init => "alloc " ++ init.print
  | .refExpr _ var => "&" ++ var.print
  | .deRefExpr _ ptr => "(*" ++ ptr.print ++ ")"
  | .recordExpr _ fields => "\x7b" ++ ",".intercalate (ASTExpr.printFields fields) ++ "\x7d"
  | .accessExpr _ record field => "(" ++ record.print ++ "." ++ field ++ ")"
  | .ternaryExpr _ condition thenExpr elseExpr =>
    condition.print ++ " ? " ++ thenExpr.print ++ " : " ++ elseExpr.print
  | .arrayExpr _ elements => "[" ++ ", ".intercalate (ASTExpr.printList elements) ++ "]"
  | .arrayOfExpr _ e1 e2 => "[" ++ e1.print ++ " of " ++ e2.print ++ "]"
  | .indexingExpr _ arr idx => arr.print ++ "[" ++ idx.print ++ "]"
  | .arrayLenExpr _ ptr => "(#" ++ ptr.print ++ ")"

def ASTExpr.printList : List ASTExpr → List String
  | [] => []
  | e :: es => e.print :: ASTExpr.printList es

def ASTExpr.printFields : List ASTFieldExpr → List String
  | [] => []
  | .mk _ field init :: fs => (field ++ ":" ++ init.print) :: ASTExpr.printFields fs

end

/-- The iterator or the range, and the increment. -/
def ForDomain.print : ForDomain → String
  | .iterator e => e.print
  | .range rangeStart rangeEnd none => rangeStart.print ++ ".." ++ rangeEnd.print
  | .range rangeStart rangeEnd (some increment) =>
    rangeStart.print ++ ".." ++ rangeEnd.print ++ " by " ++ increment.print

mutual

/-- `print` of the statements. -/
def ASTStmt.print : ASTStmt → String
  | .assignStmt _ lhs rhs => lhs.print ++ " = " ++ rhs.print ++ ";"
  | .updateStmt _ arg increment => arg.print ++ if increment then "++;" else "--;"
  | .blockStmt _ stmts => "\x7b " ++ ASTStmt.printList stmts ++ "\x7d"
  | .whileStmt _ condition body => "while (" ++ condition.print ++ ") " ++ body.print
  | .forStmt _ item domain body =>
    "for (" ++ item.print ++ " : " ++ domain.print ++ ") " ++ body.print
  | .ifStmt _ condition thenStmt none => "if (" ++ condition.print ++ ") " ++ thenStmt.print
  | .ifStmt _ condition thenStmt (some elseStmt) =>
    "if (" ++ condition.print ++ ") " ++ thenStmt.print ++ " else " ++ elseStmt.print
  | .outputStmt _ arg => "output " ++ arg.print ++ ";"
  | .errorStmt _ arg => "error " ++ arg.print ++ ";"

def ASTStmt.printList : List ASTStmt → String
  | [] => ""
  | s :: ss => s.print ++ " " ++ ASTStmt.printList ss

end

/-- `ASTNode::print`. -/
def ASTNode.print : ASTNode → String
  | .function f =>
    f.decl.name ++ "(" ++ ",".intercalate (f.formals.map ASTDeclNode.name) ++ ") \x7b...\x7d"
  | .declNode d => d.name
  | .declStmt s => "var " ++ ", ".intercalate (s.vars.map ASTDeclNode.name) ++ ";"
  | .expr e => e.print
  | .fieldExpr f => f.field ++ ":" ++ f.initializer.print
  | .stmt s => s.print
  | .returnStmt s => "return " ++ s.arg.print ++ ";"

/-! ### The iterator -/

/-- `SyntaxTree`: a program with its name, or another node. -/
inductive SyntaxTree
  | program (name : String) (p : ASTProgram)
  | node (n : ASTNode)

namespace SyntaxTree

/-- The address of the root. The program is not among the nodes that have a number. -/
def getRoot : SyntaxTree → Option NodeId
  | .program _ _ => none
  | .node n => some n.node

def getSubtrees : SyntaxTree → List SyntaxTree
  | .program _ p => p.functions.map fun f ↦ .node (.function f)
  | .node n => n.getChildren.map .node

/-- The text of the root. -/
def print : SyntaxTree → String
  | .program name _ => name
  | .node n => n.print

end SyntaxTree

/-- `PreOrderIterator`. The top of the stack is the head of the list. -/
structure PreOrderIterator where
  tree : SyntaxTree
  stack : List SyntaxTree

namespace PreOrderIterator

/-- The constructor. -/
def make (tree : SyntaxTree) (atEnd : Bool) : PreOrderIterator where
  tree := tree
  stack := if atEnd then [] else [tree]

/-- `operator++`. -/
def next (iter : PreOrderIterator) : PreOrderIterator :=
  match iter.stack with
  | [] => iter
  | current :: stack =>
    { iter with
      stack := current.getSubtrees.reverse.foldl (fun stack subtree ↦ subtree :: stack) stack }

/-- `IteratorUtils::are_equal`. -/
def areEqual (lhs rhs : PreOrderIterator) : Bool :=
  if lhs.tree.getRoot ≠ rhs.tree.getRoot then false
  else if lhs.stack.length ≠ rhs.stack.length then false
  else
    match lhs.stack, rhs.stack with
    | top :: _, top' :: _ => top.getRoot == top'.getRoot
    | _, _ => true

end PreOrderIterator

/-- `for (auto iter = tree.begin(""); iter != tree.end(""); ++iter)`. -/
def SyntaxTree.forEach {σ : Type} (tree : SyntaxTree) (body : σ → SyntaxTree → σ) :
    ℕ → PreOrderIterator → σ → Option σ
  | 0, _, _ => none
  | fuel + 1, iter, s =>
    if iter.areEqual (.make tree true) then some s
    else
      match iter.stack with
      | [] => none
      | current :: _ => tree.forEach body fuel iter.next (body s current)

/-! ### The visualizer -/

/-- A statement of the dot language. -/
inductive DotStatement
  | vertex (name label : String)
  | edge (source target : String)
  deriving DecidableEq, Repr

/-- The line that is written for a statement. -/
def DotStatement.text : DotStatement → String
  | .vertex name label => "  \"" ++ name ++ "\" [label = \"" ++ label ++ "\"];\n"
  | .edge source target => "  \"" ++ source ++ "\" -> \"" ++ target ++ "\";\n"

/-- What is written for the statements. -/
def dotText (graph : List DotStatement) : String :=
  "digraph \x7b\n  rankdir = TB;\n\n" ++ String.join (graph.map DotStatement.text) ++ "\x7d"

/-- `ASTVisualizer`, with the statements written so far. The top of `parent` is the head of the list,
and `vertexMap` is in order of insertion. -/
structure ASTVisualizer where
  os : List DotStatement
  parent : List SyntaxTree
  vertexMap : List (Option NodeId × String)

namespace ASTVisualizer

/-- The constructor. -/
def make : ASTVisualizer :=
  ⟨[], [], []⟩

/-- `vertexMap[element]`, which inserts an empty name where there is none. -/
def vertexName (v : ASTVisualizer) (element : SyntaxTree) : String × ASTVisualizer :=
  match v.vertexMap.find? fun x ↦ x.1 == element.getRoot with
  | some x => (x.2, v)
  | none => ("", { v with vertexMap := v.vertexMap ++ [(element.getRoot, "")] })

/-- The name for the next vertex, inserted where the element has none. -/
def insertVertex (v : ASTVisualizer) (element : SyntaxTree) : ASTVisualizer :=
  if v.vertexMap.any fun x ↦ x.1 == element.getRoot then v
  else
    { v with
      vertexMap := v.vertexMap ++ [(element.getRoot, "v" ++ toString v.vertexMap.length)] }

def declare_node (v : ASTVisualizer) (element : SyntaxTree) (label : String) : ASTVisualizer :=
  let (name, v) := v.vertexName element
  { v with os := v.os ++ [.vertex name (if label = "" then element.print else label)] }

def connect_node_to_parent (v : ASTVisualizer) (element : SyntaxTree) : ASTVisualizer :=
  match v.parent with
  | [] => v
  | top :: parent =>
    let (source, v) := v.vertexName top
    let (target, v) := v.vertexName element
    { v with os := v.os ++ [.edge source target], parent := parent }

def pushn (v : ASTVisualizer) (element : SyntaxTree) (n : ℕ) : ASTVisualizer :=
  { v with parent := List.replicate n element ++ v.parent }

def process_node (v : ASTVisualizer) (element : SyntaxTree) : ASTVisualizer :=
  (((v.insertVertex element).declare_node element "").connect_node_to_parent element).pushn
    element element.getSubtrees.length

/-- The body of the loop of `buildGraph`. -/
def visitNode (v : ASTVisualizer) (element : SyntaxTree) : ASTVisualizer :=
  if v.parent.isEmpty then
    ((v.insertVertex element).declare_node element "start").pushn element
      element.getSubtrees.length
  else v.process_node element

/-- `buildGraph`, with a bound on the rounds of the loop. -/
def buildGraph (fuel : ℕ) (tree : SyntaxTree) (v : ASTVisualizer) : Option ASTVisualizer :=
  tree.forEach visitNode fuel (.make tree false) v

end ASTVisualizer

/-! ### What the iterator visits -/

namespace SyntaxTree

/-- The trees below a tree and the tree itself, in the order in which `accept` visits the roots. -/
def nodes : SyntaxTree → List SyntaxTree
  | .program name p => .program name p :: (visits p.accept).map .node
  | .node n => (visits n.accept).map .node

theorem isPreOrder_nodes : IsPreOrder getSubtrees nodes := by
  intro t
  cases t with
  | program name p =>
    rw [nodes, ASTProgram.accept, visits_flatMap, List.map_flatMap, getSubtrees, List.flatMap_map]
    rfl
  | node n =>
    have h : visits n.accept = n :: n.getChildren.flatMap fun c ↦ visits c.accept :=
      ASTNode.isPreOrder_visits n
    rw [nodes, h, List.map_cons, List.map_flatMap, getSubtrees, List.flatMap_map]
    rfl

/-- The nodes of a program are distinct. -/
theorem nodup_nodes (name : String) (p : ASTProgram) :
    ((program name p).nodes.map getRoot).Nodup := by
  have h : ((visits p.accept).map ASTNode.node).Nodup := by
    have heq : (visits p.accept).map ASTNode.node = visitedNodes p.accept := by
      rw [visits, visitedNodes, List.map_filterMap]
      refine List.filterMap_congr fun ev _ ↦ ?_
      cases ev <;> rfl
    exact heq ▸ p.distinct
  rw [nodes, List.map_cons, List.map_map]
  refine List.nodup_cons.2 ⟨fun hmem ↦ ?_, ?_⟩
  · obtain ⟨n, -, hn⟩ := List.mem_map.1 hmem
    cases hn
  · have hsome : (visits p.accept).map (getRoot ∘ node) =
        ((visits p.accept).map ASTNode.node).map some := by
      rw [List.map_map]
      rfl
    exact hsome ▸ h.map (Option.some_injective _)

end SyntaxTree

namespace PreOrderIterator

theorem areEqual_end (tree : SyntaxTree) (stack : List SyntaxTree) :
    (PreOrderIterator.mk tree stack).areEqual (.make tree true) = stack.isEmpty := by
  cases stack with
  | nil => simp [areEqual, make]
  | cons t stack => simp [areEqual, make]

theorem next_eq (tree : SyntaxTree) (stack : List SyntaxTree) :
    (PreOrderIterator.mk tree stack).next = ⟨tree, advance SyntaxTree.getSubtrees stack⟩ := by
  cases stack with
  | nil => rfl
  | cons t stack =>
    simp only [next, advance, List.foldl_reverse, List.foldr_cons_eq_append']

end PreOrderIterator

/-- The loop walks the tree. -/
theorem SyntaxTree.forEach_eq_walk {σ : Type} (tree : SyntaxTree) (body : σ → SyntaxTree → σ) :
    ∀ (fuel : ℕ) (stack : List SyntaxTree) (s : σ),
      tree.forEach body fuel ⟨tree, stack⟩ s = walk getSubtrees body fuel stack s
  | 0, _, _ => rfl
  | fuel + 1, stack, s => by
    rw [SyntaxTree.forEach, PreOrderIterator.areEqual_end]
    cases stack with
    | nil => rfl
    | cons t stack =>
      rw [PreOrderIterator.next_eq]
      exact tree.forEach_eq_walk body fuel _ _

/-- The nodes that the iterator visits. -/
def SyntaxTree.iterate (fuel : ℕ) (tree : SyntaxTree) : Option (List SyntaxTree) :=
  tree.forEach (fun visited t ↦ visited ++ [t]) fuel (.make tree false) []

theorem SyntaxTree.iterate_eq (tree : SyntaxTree) {fuel : ℕ} (h : tree.nodes.length < fuel) :
    tree.iterate fuel = some tree.nodes := by
  have hstack : [tree].flatMap nodes = tree.nodes := List.flatMap_singleton _ _
  obtain ⟨s, hwalk, hs⟩ := walk_spec isPreOrder_nodes (fun visited t ↦ visited ++ [t])
    (fun visited _ s ↦ s = visited) (fun visited t _ s hs ↦ by rw [hs]) fuel [] [tree] [] rfl
    (hstack.symm ▸ h)
  rw [hstack, List.nil_append] at hs
  rw [hs] at hwalk
  exact (tree.forEach_eq_walk _ fuel [tree] []).trans hwalk

/-! ### What the visualizer draws -/

/-- The name and the label of a vertex. -/
def DotStatement.vertex? : DotStatement → Option (String × String)
  | .vertex name label => some (name, label)
  | .edge _ _ => none

/-- The ends of an edge. -/
def DotStatement.edge? : DotStatement → Option (String × String)
  | .vertex _ _ => none
  | .edge source target => some (source, target)

/-- The graph has a vertex for every node, with a name of its own, and an edge for every node but the
root, from its parent. -/
structure IsDrawing (tree : SyntaxTree) (graph : List DotStatement) (name : SyntaxTree → String) :
    Prop where
  vertices : graph.filterMap DotStatement.vertex? =
    (name tree, "start") :: tree.nodes.tail.map fun n ↦ (name n, n.print)
  unique : (tree.nodes.map name).Nodup
  edges : ∃ parents : List SyntaxTree,
    List.Forall₂ (fun p n ↦ p ∈ tree.nodes ∧ n ∈ p.getSubtrees) parents tree.nodes.tail ∧
      graph.filterMap DotStatement.edge? =
        List.zipWith (fun p n ↦ (name p, name n)) parents tree.nodes.tail

/-- The name of a node: its place in pre-order. -/
def SyntaxTree.name (tree n : SyntaxTree) : String :=
  "v" ++ toString (tree.nodes.findIdx fun m ↦ m.getRoot == n.getRoot)

section Names

open SyntaxTree

variable {tree a n : SyntaxTree} {ns rest : List SyntaxTree} {v : ASTVisualizer}

theorem SyntaxTree.name_congr (h : n.getRoot = a.getRoot) : tree.name n = tree.name a := by
  rw [name, name, h]

theorem toString_nat_injective : Function.Injective (toString : ℕ → String) := by
  intro m n h
  have hlist : Nat.toDigits 10 m = Nat.toDigits 10 n := by
    rw [← Nat.toList_repr, ← Nat.toList_repr]
    exact congrArg String.toList h
  rw [← Nat.ofDigitChars_ten_toDigits (n := m), hlist, Nat.ofDigitChars_ten_toDigits]

/-- A node that comes next has not been visited. -/
theorem SyntaxTree.getRoot_ne (h : (tree.nodes.map getRoot).Nodup)
    (horder : tree.nodes = ns ++ a :: rest) : ∀ n ∈ ns, n.getRoot ≠ a.getRoot := by
  rw [horder, List.map_append, List.map_cons] at h
  exact fun n hn heq ↦ (List.nodup_append.1 h).2.2 _ (List.mem_map_of_mem hn) _ List.mem_cons_self heq

/-- The name of a node that comes next. -/
theorem SyntaxTree.name_eq_length (horder : tree.nodes = ns ++ a :: rest)
    (hnew : ∀ n ∈ ns, n.getRoot ≠ a.getRoot) : tree.name a = "v" ++ toString ns.length := by
  have hns : (ns.findIdx fun m ↦ m.getRoot == a.getRoot) = ns.length :=
    List.findIdx_eq_length.2 fun n hn ↦ beq_false_of_ne (hnew n hn)
  rw [name, horder, List.findIdx_append, hns, if_neg (lt_irrefl _), List.findIdx_cons,
    beq_self_eq_true, cond_true, Nat.zero_add]

/-- The nodes have different names. -/
theorem SyntaxTree.nodup_map_name (h : (tree.nodes.map getRoot).Nodup) :
    (tree.nodes.map tree.name).Nodup := by
  have hnames : tree.nodes.map tree.name =
      (List.range tree.nodes.length).map fun i ↦ "v" ++ toString i := by
    refine List.ext_getElem (by simp) fun i hi _ ↦ ?_
    rw [List.length_map] at hi
    have horder : tree.nodes = tree.nodes.take i ++ tree.nodes[i] :: tree.nodes.drop (i + 1) := by
      rw [List.getElem_cons_drop, List.take_append_drop]
    have hname := name_eq_length horder (getRoot_ne h horder)
    rw [List.length_take_of_le hi.le] at hname
    simpa using hname
  rw [hnames]
  refine List.nodup_range.map fun i j hij ↦ toString_nat_injective ?_
  exact String.append_right_inj _ |>.1 hij

/-- The map with the names of the nodes that were visited. -/
def names (tree : SyntaxTree) (ns : List SyntaxTree) : List (Option NodeId × String) :=
  ns.map fun n ↦ (n.getRoot, tree.name n)

theorem ASTVisualizer.vertexName_of_mem (hmap : v.vertexMap = names tree ns) (hn : n ∈ ns) :
    v.vertexName n = (tree.name n, v) := by
  have hfind : (v.vertexMap.find? fun x ↦ x.1 == n.getRoot) ≠ none := by
    rw [hmap, Ne, List.find?_eq_none]
    exact fun h ↦ h _ (List.mem_map_of_mem hn) (beq_self_eq_true _)
  obtain ⟨x, hx⟩ := Option.ne_none_iff_exists'.1 hfind
  obtain ⟨m, -, rfl⟩ := List.mem_map.1 (hmap ▸ List.mem_of_find?_eq_some hx)
  have hroot : m.getRoot = n.getRoot := by simpa using List.find?_some hx
  rw [vertexName, hx]
  exact congrArg (·, v) (SyntaxTree.name_congr hroot)

theorem ASTVisualizer.insertVertex_of_new (hmap : v.vertexMap = names tree ns)
    (horder : tree.nodes = ns ++ a :: rest) (hnew : ∀ n ∈ ns, n.getRoot ≠ a.getRoot) :
    v.insertVertex a = { v with vertexMap := names tree (ns ++ [a]) } := by
  have hany : (v.vertexMap.any fun x ↦ x.1 == a.getRoot) = false := by
    rw [hmap, names, List.any_map, List.any_eq_false]
    exact fun n hn h ↦ hnew n hn (eq_of_beq h)
  rw [insertVertex, hany, if_neg Bool.false_ne_true, hmap]
  simp [names, SyntaxTree.name_eq_length horder hnew]

/-! ### The loop -/

/-- The visualizer after the root and then `visited`, with `stack` still to come. -/
structure Drawn (tree : SyntaxTree) (visited stack : List SyntaxTree) (v : ASTVisualizer) : Prop where
  order : tree.nodes = tree :: (visited ++ stack.flatMap nodes)
  map : v.vertexMap = names tree (tree :: visited)
  vertices : v.os.filterMap DotStatement.vertex? =
    (tree.name tree, "start") :: visited.map fun n ↦ (tree.name n, n.print)
  edges : ∃ parents : List SyntaxTree,
    List.Forall₂ (fun p n ↦ p ∈ tree.nodes ∧ n ∈ p.getSubtrees) parents visited ∧
      v.os.filterMap DotStatement.edge? =
        List.zipWith (fun p n ↦ (tree.name p, tree.name n)) parents visited
  aligned : Aligned getSubtrees stack v.parent
  parents : ∀ p ∈ v.parent, p ∈ tree :: visited

/-- What is left after a visit. -/
theorem SyntaxTree.flatMap_nodes_cons (a : SyntaxTree) (stack : List SyntaxTree) :
    (a :: stack).flatMap nodes = a :: (advance getSubtrees (a :: stack)).flatMap nodes := by
  rw [List.flatMap_cons, isPreOrder_nodes a, advance, List.flatMap_append, List.cons_append]

/-- The round of the loop for a node below the root. -/
theorem ASTVisualizer.process_node_eq {p : SyntaxTree} {ps : List SyntaxTree}
    (hmap : v.vertexMap = names tree ns) (horder : tree.nodes = ns ++ a :: rest)
    (hnew : ∀ n ∈ ns, n.getRoot ≠ a.getRoot) (hparent : v.parent = p :: ps) (hp : p ∈ ns) :
    v.process_node a =
      ⟨v.os ++ [.vertex (tree.name a) a.print, .edge (tree.name p) (tree.name a)],
        advanceParents getSubtrees a ps, names tree (ns ++ [a])⟩ := by
  have ha : a ∈ ns ++ [a] := List.mem_append_right _ List.mem_cons_self
  have hp' : p ∈ ns ++ [a] := List.mem_append_left _ hp
  have hname : ∀ (n : SyntaxTree) (os : List DotStatement) (parent : List SyntaxTree), n ∈ ns ++ [a] →
      (ASTVisualizer.mk os parent (names tree (ns ++ [a]))).vertexName n =
        (tree.name n, ⟨os, parent, names tree (ns ++ [a])⟩) :=
    fun n os parent hn ↦ vertexName_of_mem rfl hn
  rw [process_node, insertVertex_of_new hmap horder hnew, hparent, declare_node, hname a _ _ ha]
  dsimp only
  rw [connect_node_to_parent]
  dsimp only
  rw [hname p _ _ hp']
  dsimp only
  rw [hname a _ _ ha, pushn, advanceParents]
  simp

theorem Drawn.visit {visited stack : List SyntaxTree} (hnodup : (tree.nodes.map getRoot).Nodup)
    (h : Drawn tree visited (a :: stack) v) :
    Drawn tree (visited ++ [a]) (advance getSubtrees (a :: stack)) (v.visitNode a) := by
  obtain ⟨p, ps, hparent, hchild, haligned⟩ := h.aligned.visit
  have hp : p ∈ tree :: visited := h.parents p (hparent ▸ List.mem_cons_self)
  have hps : ∀ q ∈ ps, q ∈ tree :: visited := fun q hq ↦
    h.parents q (hparent ▸ List.mem_cons_of_mem p hq)
  have horder := h.order
  rw [SyntaxTree.flatMap_nodes_cons, ← List.cons_append] at horder
  have hvisit : v.visitNode a = v.process_node a := by
    rw [ASTVisualizer.visitNode, hparent]
    rfl
  rw [hvisit, ASTVisualizer.process_node_eq h.map horder (getRoot_ne hnodup horder) hparent hp]
  obtain ⟨parents, hforall, hedges⟩ := h.edges
  refine ⟨?_, rfl, ?_, ⟨parents ++ [p], ?_, ?_⟩, haligned, ?_⟩
  · rw [List.append_assoc, List.singleton_append]
    exact horder
  · rw [List.filterMap_append, h.vertices, List.map_append]
    rfl
  · refine List.rel_append hforall (.cons ⟨?_, hchild⟩ .nil)
    rw [horder]
    exact List.mem_append_left _ hp
  · rw [List.filterMap_append, hedges, List.zipWith_append hforall.length_eq]
    rfl
  · intro q hq
    rw [← List.cons_append]
    rcases List.mem_append.1 hq with hq | hq
    · rw [List.eq_of_mem_replicate hq]
      exact List.mem_append_right _ List.mem_cons_self
    · exact List.mem_append_left _ (hps q hq)

/-- The round of the loop for the root. -/
theorem drawn_root (tree : SyntaxTree) :
    Drawn tree [] (advance getSubtrees [tree]) (ASTVisualizer.make.visitNode tree) := by
  have horder : tree.nodes = [] ++ tree :: (advance getSubtrees [tree]).flatMap nodes := by
    rw [List.nil_append, ← flatMap_nodes_cons, List.flatMap_singleton]
  have hnew : ∀ n ∈ ([] : List SyntaxTree), n.getRoot ≠ tree.getRoot := List.forall_mem_nil _
  have hvisit : ASTVisualizer.make.visitNode tree =
      ⟨[.vertex (tree.name tree) "start"], advanceParents getSubtrees tree [],
        names tree [tree]⟩ := by
    have hname := ASTVisualizer.vertexName_of_mem (v := ⟨[], [], names tree [tree]⟩) rfl
      (List.mem_singleton_self tree)
    rw [ASTVisualizer.visitNode, ASTVisualizer.make,
      ASTVisualizer.insertVertex_of_new (v := ⟨[], [], []⟩) rfl horder hnew,
      ASTVisualizer.declare_node]
    simp only [List.nil_append, hname]
    rfl
  rw [hvisit]
  refine ⟨horder, rfl, rfl, ⟨[], .nil, rfl⟩, Aligned.root tree, fun p hp ↦ ?_⟩
  rw [advanceParents, List.append_nil] at hp
  exact List.mem_singleton.2 (List.eq_of_mem_replicate hp)

/-- The graph is a drawing of the tree. -/
theorem ASTVisualizer.isDrawing_buildGraph (hnodup : (tree.nodes.map getRoot).Nodup) {fuel : ℕ}
    (h : tree.nodes.length < fuel) :
    ∃ v, buildGraph fuel tree .make = some v ∧ IsDrawing tree v.os tree.name := by
  have hroot := drawn_root tree
  have hnodes := hroot.order
  cases fuel with
  | zero => exact absurd h (Nat.not_lt_zero _)
  | succ fuel =>
    rw [hnodes, List.length_cons] at h
    obtain ⟨v, hwalk, hv⟩ := walk_spec isPreOrder_nodes visitNode (Drawn tree)
      (fun _ _ _ _ hd ↦ hd.visit hnodup) fuel [] _ _ hroot (Nat.lt_of_succ_lt_succ h)
    refine ⟨v, (tree.forEach_eq_walk _ (fuel + 1) [tree] _).trans hwalk, ?_⟩
    have htail : tree.nodes.tail = (advance getSubtrees [tree]).flatMap nodes := by
      rw [hnodes]
      rfl
    exact ⟨htail ▸ hv.vertices, SyntaxTree.nodup_map_name hnodup, htail ▸ hv.edges⟩

end Names

/-- `getChildren` lists what `accept` visits. The iterator visits every node of a program once, in the
order of `accept`, and the visualizer draws the tree. -/
theorem ASTVisualizer.draws_tree (name : String) (p : ASTProgram) :
    (∀ n : ASTNode, n.accept = visiting n (n.getChildren.flatMap ASTNode.accept)) ∧
      ((SyntaxTree.program name p).nodes.map SyntaxTree.getRoot).Nodup ∧
      ∃ bound, ∀ fuel, bound < fuel →
        (SyntaxTree.program name p).iterate fuel = some (SyntaxTree.program name p).nodes ∧
        ∃ v, buildGraph fuel (.program name p) .make = some v ∧
          IsDrawing (.program name p) v.os (SyntaxTree.program name p).name :=
  ⟨ASTNode.accept_eq, SyntaxTree.nodup_nodes name p, _, fun _ h ↦
    ⟨SyntaxTree.iterate_eq _ h, isDrawing_buildGraph (SyntaxTree.nodup_nodes name p) h⟩⟩

end Sipc
