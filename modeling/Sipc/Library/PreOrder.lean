import Mathlib.Data.List.Basic

/-!
# Walking a tree in pre-order

A tree is given by the children of its nodes, in order, and is walked with a stack: the node on the top
is visited and makes place for its children. The walk visits the nodes in pre-order, and keeps what
every visit preserves (`walk_spec`). A second stack, onto which every visited node is pushed once for
each of its children and from which one entry is taken at every visit, has the parent of the visited
node on its top (`Aligned.visit`).
-/

set_option autoImplicit false
set_option relaxedAutoImplicit false

namespace Sipc.Library

variable {α σ : Type}

/-- The list of a node has the node first, and then the lists of its children. -/
def IsPreOrder (children preOrder : α → List α) : Prop :=
  ∀ a, preOrder a = a :: (children a).flatMap preOrder

namespace IsPreOrder

variable {children preOrder : α → List α}

theorem mem_self (h : IsPreOrder children preOrder) (a : α) : a ∈ preOrder a := by
  rw [h a]
  exact List.mem_cons_self

theorem sublist_of_mem (h : IsPreOrder children preOrder) {a c : α} (hc : c ∈ children a) :
    (preOrder c).Sublist (preOrder a) := by
  rw [h a]
  exact (List.sublist_flatten_of_mem (List.mem_map_of_mem hc)).cons a

theorem length_lt (h : IsPreOrder children preOrder) {a c : α} (hc : c ∈ children a) :
    (preOrder c).length < (preOrder a).length := by
  rw [h a, List.length_cons]
  exact Nat.lt_succ_of_le (List.sublist_flatten_of_mem (List.mem_map_of_mem hc)).length_le

/-- What holds of a node if it holds of its children, holds of every node. -/
theorem induction (h : IsPreOrder children preOrder) {P : α → Prop}
    (step : ∀ a, (∀ c ∈ children a, P c) → P a) (a : α) : P a := by
  suffices hn : ∀ n a, (preOrder a).length < n → P a from hn _ a (Nat.lt_succ_self _)
  intro n
  induction n with
  | zero => exact fun a ha ↦ absurd ha (Nat.not_lt_zero _)
  | succ n ih =>
    refine fun a ha ↦ step a fun c hc ↦ ih c ?_
    exact Nat.lt_of_lt_of_le (h.length_lt hc) (Nat.lt_succ_iff.1 ha)

/-- The list of a node has the lists of all nodes in it. -/
theorem sublist (h : IsPreOrder children preOrder) {b : α} (a : α) :
    b ∈ preOrder a → (preOrder b).Sublist (preOrder a) := by
  refine h.induction (P := fun a ↦ b ∈ preOrder a → (preOrder b).Sublist (preOrder a))
    (fun a ih hb ↦ ?_) a
  rw [h a] at hb
  rcases List.mem_cons.1 hb with rfl | hb
  · exact List.Sublist.refl _
  · obtain ⟨c, hc, hbc⟩ := List.mem_flatMap.1 hb
    exact (ih c hc hbc).trans (h.sublist_of_mem hc)

end IsPreOrder

/-! ### The stack -/

/-- The stack after the node on the top was visited. -/
def advance (children : α → List α) : List α → List α
  | [] => []
  | a :: stack => children a ++ stack

/-- Visit the node on the top until the stack is empty. -/
def walk (children : α → List α) (visit : σ → α → σ) : ℕ → List α → σ → Option σ
  | 0, _, _ => none
  | _ + 1, [], s => some s
  | n + 1, a :: stack, s => walk children visit n (advance children (a :: stack)) (visit s a)

/-- What every visit preserves holds when the walk is over, and then the nodes below those on the stack
have been visited in pre-order. -/
theorem walk_spec {children preOrder : α → List α} (h : IsPreOrder children preOrder)
    (visit : σ → α → σ) (inv : List α → List α → σ → Prop)
    (step : ∀ visited a stack s, inv visited (a :: stack) s →
      inv (visited ++ [a]) (advance children (a :: stack)) (visit s a)) :
    ∀ (n : ℕ) (visited stack : List α) (s : σ), inv visited stack s →
      (stack.flatMap preOrder).length < n →
      ∃ s', walk children visit n stack s = some s' ∧ inv (visited ++ stack.flatMap preOrder) [] s' := by
  intro n
  induction n with
  | zero => exact fun _ _ _ _ hn ↦ absurd hn (Nat.not_lt_zero _)
  | succ n ih =>
    intro visited stack s hinv hn
    cases stack with
    | nil => exact ⟨s, rfl, (List.append_nil visited).symm ▸ hinv⟩
    | cons a stack =>
      have hpending : (a :: stack).flatMap preOrder =
          a :: (advance children (a :: stack)).flatMap preOrder := by
        rw [List.flatMap_cons, h a, advance, List.flatMap_append, List.cons_append]
      rw [hpending, List.length_cons] at hn
      obtain ⟨s', hwalk, hinv'⟩ := ih (visited ++ [a]) _ _ (step visited a stack s hinv)
        (Nat.lt_of_succ_lt_succ hn)
      refine ⟨s', hwalk, ?_⟩
      rw [hpending]
      rwa [List.append_assoc, List.singleton_append] at hinv'

/-! ### The parents -/

/-- The second stack after a visit. -/
def advanceParents (children : α → List α) (a : α) (parents : List α) : List α :=
  List.replicate (children a).length a ++ parents

/-- Each node on the stack has its parent at the same place of the second stack. -/
def Aligned (children : α → List α) (stack parents : List α) : Prop :=
  List.Forall₂ (fun a p ↦ a ∈ children p) stack parents

namespace Aligned

variable {children : α → List α}

/-- The children of a node are aligned with as many copies of the node. -/
theorem replicate (a : α) :
    Aligned children (children a) (List.replicate (children a).length a) := by
  suffices h : ∀ l, (∀ c ∈ l, c ∈ children a) →
      Aligned children l (List.replicate l.length a) from h _ fun _ hc ↦ hc
  intro l
  induction l with
  | nil => exact fun _ ↦ .nil
  | cons c l ih =>
    intro hl
    obtain ⟨hc, hl⟩ := List.forall_mem_cons.1 hl
    exact .cons hc (ih hl)

/-- The root has no parent, and after its visit the stacks are aligned. -/
theorem root (a : α) : Aligned children (advance children [a]) (advanceParents children a []) := by
  rw [advance, advanceParents, List.append_nil, List.append_nil]
  exact replicate a

theorem append {stack stack' parents parents' : List α} (h : Aligned children stack parents)
    (h' : Aligned children stack' parents') :
    Aligned children (stack ++ stack') (parents ++ parents') := by
  induction h with
  | nil => exact h'
  | cons ha _ ih => exact .cons ha ih

/-- The parent of the node that is visited is on the top, and the stacks stay aligned. -/
theorem visit {a : α} {stack parents : List α} (h : Aligned children (a :: stack) parents) :
    ∃ p ps, parents = p :: ps ∧ a ∈ children p ∧
      Aligned children (advance children (a :: stack)) (advanceParents children a ps) := by
  cases h with
  | cons ha hrest => exact ⟨_, _, rfl, ha, (replicate a).append hrest⟩

end Aligned

end Sipc.Library
