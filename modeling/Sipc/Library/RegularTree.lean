import Mathlib.Data.PFunctor.Univariate.M
import Mathlib.Data.Set.Finite.Lattice
import Mathlib.Logic.Relation

/-!
# Finitely branching trees, possibly infinite

The trees a recursive type denotes: every node carries a label and a finite list of children, and
branches may be infinite. They are the final coalgebra of a polynomial functor, so a tree is built
by unfolding a system of states (`unfold`, `unfold_eq`), and two trees are equal once a relation
between them is closed under taking children (`eq_of_bisim`). A tree is `Regular` when it has
finitely many subtrees; the unfolding of a state that reaches finitely many states is regular
(`regular_unfold`).
-/

set_option autoImplicit false
set_option relaxedAutoImplicit false

namespace Sipc.Library

/-- The shape of one node: a label and the number of its children. -/
abbrev treeFunctor (L : Type) : PFunctor :=
  ⟨L × ℕ, fun shape ↦ Fin shape.2⟩

/-- The root label and the list of children stored in one node of the functor. -/
def readNode {L X : Type} (d : (treeFunctor L).Obj X) : L × List X :=
  (d.1.1, List.ofFn (n := d.1.2) d.2)

/-- One node of the functor from a label and a list of children. -/
def writeNode {L X : Type} (p : L × List X) : (treeFunctor L).Obj X :=
  ⟨(p.1, p.2.length), p.2.get⟩

theorem readNode_writeNode {L X : Type} (p : L × List X) : readNode (writeNode p) = p :=
  Prod.ext rfl (List.ofFn_get p.2)

theorem readNode_injective {L X : Type} :
    Function.Injective (readNode : (treeFunctor L).Obj X → L × List X) := by
  rintro ⟨⟨l, n⟩, f⟩ ⟨⟨l', n'⟩, f'⟩ h
  have hl : l = l' := congrArg Prod.fst h
  have hf : List.ofFn (n := n) f = List.ofFn (n := n') f' := congrArg Prod.snd h
  have hn : n = n' := by
    have hlen := congrArg List.length hf
    simpa only [List.length_ofFn] using hlen
  subst hl hn
  rw [List.ofFn_injective hf]

theorem readNode_map {L X Y : Type} (f : X → Y) (d : (treeFunctor L).Obj X) :
    readNode ((treeFunctor L).map f d) = ((readNode d).1, (readNode d).2.map f) := by
  obtain ⟨⟨l, n⟩, g⟩ := d
  exact Prod.ext rfl (List.map_ofFn (n := n) (f := g) (g := f)).symm

theorem forall₂_ofFn {X Y : Type*} {R : X → Y → Prop} {n : ℕ} {f : Fin n → X} {g : Fin n → Y}
    (h : List.Forall₂ R (List.ofFn f) (List.ofFn g)) (i : Fin n) : R (f i) (g i) := by
  have hget := h.get (i := i.val) (by simp) (by simp)
  simpa using hget

/-- Finitely branching trees over the labels `L`, infinite branches included. -/
def Tree (L : Type) : Type :=
  (treeFunctor L).M

namespace Tree

variable {L S : Type}

/-- The root node of a tree. -/
def dest (t : Tree L) : (treeFunctor L).Obj (Tree L) :=
  PFunctor.M.dest t

theorem dest_injective : Function.Injective (dest : Tree L → (treeFunctor L).Obj (Tree L)) :=
  Function.LeftInverse.injective (g := PFunctor.M.mk) PFunctor.M.mk_dest

/-- The label at the root. -/
def label (t : Tree L) : L :=
  (readNode t.dest).1

/-- The subtrees below the root, from left to right. -/
def children (t : Tree L) : List (Tree L) :=
  (readNode t.dest).2

/-- A tree is determined by its root label and its children. -/
theorem ext_node {s t : Tree L} (hl : s.label = t.label) (hc : s.children = t.children) : s = t :=
  dest_injective (readNode_injective (Prod.ext hl hc))

/-- The tree with a given root label and list of children. -/
def node (label : L) (children : List (Tree L)) : Tree L :=
  PFunctor.M.mk (writeNode (label, children))

theorem dest_node (l : L) (cs : List (Tree L)) : (node l cs).dest = writeNode (l, cs) :=
  PFunctor.M.dest_mk _

@[simp] theorem label_node (l : L) (cs : List (Tree L)) : (node l cs).label = l := by
  unfold label
  rw [dest_node, readNode_writeNode]

@[simp] theorem children_node (l : L) (cs : List (Tree L)) : (node l cs).children = cs := by
  unfold children
  rw [dest_node, readNode_writeNode]

@[simp] theorem node_label_children (t : Tree L) : node t.label t.children = t :=
  ext_node (label_node _ _) (children_node _ _)

@[simp] theorem node_inj {l l' : L} {cs cs' : List (Tree L)} :
    node l cs = node l' cs' ↔ l = l' ∧ cs = cs' := by
  constructor
  · intro h
    have hl := congrArg label h
    have hc := congrArg children h
    rw [label_node, label_node] at hl
    rw [children_node, children_node] at hc
    exact ⟨hl, hc⟩
  · rintro ⟨rfl, rfl⟩
    rfl

/-! ### Unfolding a system of states -/

/-- The tree a state unfolds to, when `step` gives the label of every state and the states below
it. -/
def unfold (step : S → L × List S) (s : S) : Tree L :=
  PFunctor.M.corec (fun s ↦ writeNode (step s)) s

theorem readNode_dest_unfold (step : S → L × List S) (s : S) :
    readNode (unfold step s).dest = ((step s).1, (step s).2.map (unfold step)) := by
  have h : (unfold step s).dest = (treeFunctor L).map (unfold step) (writeNode (step s)) :=
    PFunctor.M.dest_corec _ s
  rw [h, readNode_map, readNode_writeNode]

@[simp] theorem label_unfold (step : S → L × List S) (s : S) :
    (unfold step s).label = (step s).1 :=
  congrArg Prod.fst (readNode_dest_unfold step s)

@[simp] theorem children_unfold (step : S → L × List S) (s : S) :
    (unfold step s).children = (step s).2.map (unfold step) :=
  congrArg Prod.snd (readNode_dest_unfold step s)

theorem unfold_eq (step : S → L × List S) (s : S) :
    unfold step s = node (step s).1 ((step s).2.map (unfold step)) :=
  ext_node (by rw [label_unfold, label_node]) (by rw [children_unfold, children_node])

/-! ### Equality by bisimulation -/

/-- Two trees are equal when a relation holding between them forces equal labels and relates their
children pairwise. -/
theorem eq_of_bisim (R : Tree L → Tree L → Prop)
    (hR : ∀ s t, R s t → s.label = t.label ∧ List.Forall₂ R s.children t.children)
    {s t : Tree L} (h : R s t) : s = t := by
  refine PFunctor.M.bisim R ?_ s t h
  intro x y hxy
  obtain ⟨hl, hc⟩ := hR x y hxy
  obtain ⟨⟨⟨lx, nx⟩, fx⟩, hdx⟩ : ∃ d, PFunctor.M.dest x = d := ⟨_, rfl⟩
  obtain ⟨⟨⟨ly, ny⟩, fy⟩, hdy⟩ : ∃ d, PFunctor.M.dest y = d := ⟨_, rfl⟩
  unfold label dest at hl
  unfold children dest at hc
  rw [hdx, hdy] at hl hc
  change lx = ly at hl
  replace hc : List.Forall₂ R (List.ofFn (n := nx) fx) (List.ofFn (n := ny) fy) := hc
  have hn : nx = ny := by
    have hlen := hc.length_eq
    exact (List.length_ofFn (f := fx)).symm.trans (hlen.trans (List.length_ofFn (f := fy)))
  subst hl hn
  exact ⟨(lx, nx), fx, fy, hdx, hdy, fun i ↦ forall₂_ofFn hc i⟩

/-! ### Regular trees -/

/-- `Subtree s t`: the tree `s` occurs in `t`, at the root or below it. -/
def Subtree (s t : Tree L) : Prop :=
  Relation.ReflTransGen (fun parent child : Tree L ↦ child ∈ parent.children) t s

/-- A tree is regular when it has finitely many distinct subtrees. -/
def Regular (t : Tree L) : Prop :=
  {s | Subtree s t}.Finite

/-- Every subtree of the unfolding of a state is the unfolding of a state it reaches. -/
theorem subtree_unfold (step : S → L × List S) {s : S} {t : Tree L}
    (h : Subtree t (unfold step s)) :
    ∃ s', Relation.ReflTransGen (fun a b ↦ b ∈ (step a).2) s s' ∧ t = unfold step s' := by
  induction h with
  | refl => exact ⟨s, Relation.ReflTransGen.refl, rfl⟩
  | tail _ hchild ih =>
    obtain ⟨s', hs', rfl⟩ := ih
    rw [children_unfold] at hchild
    obtain ⟨s'', hmem, rfl⟩ := List.mem_map.mp hchild
    exact ⟨s'', hs'.tail hmem, rfl⟩

/-- A state that reaches finitely many states unfolds to a regular tree. -/
theorem regular_unfold (step : S → L × List S) {s : S}
    (h : {s' | Relation.ReflTransGen (fun a b ↦ b ∈ (step a).2) s s'}.Finite) :
    Regular (unfold step s) := by
  refine (h.image (unfold step)).subset ?_
  intro t ht
  obtain ⟨s', hs', rfl⟩ := subtree_unfold step ht
  exact ⟨s', hs', rfl⟩

theorem Regular.of_mem_children {t c : Tree L} (h : Regular t) (hc : c ∈ t.children) :
    Regular c :=
  h.subset fun _ hs ↦ Relation.ReflTransGen.head hc hs

theorem Regular.node {l : L} {cs : List (Tree L)} (h : ∀ c ∈ cs, Regular c) :
    Regular (node l cs) := by
  have hfin : (⋃ c ∈ {c | c ∈ cs}, {s | Subtree s c}).Finite :=
    Set.Finite.biUnion (List.finite_toSet cs) h
  refine (hfin.insert (Tree.node l cs)).subset ?_
  intro s hs
  rcases Relation.ReflTransGen.cases_head hs with rfl | ⟨c, hc, hcs⟩
  · exact Set.mem_insert _ _
  · rw [children_node] at hc
    exact Set.mem_insert_of_mem _ (Set.mem_biUnion hc hcs)

end Tree

end Sipc.Library
