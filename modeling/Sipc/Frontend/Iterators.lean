import Mathlib.Data.List.Induction
import Sipc.Frontend.ASTVisualizer
import Sipc.Library.SharedCells

/-!
# Iterators and their copies

`frontend/iterators/Iterator` is a handle of a `PreOrderIterator`: the copy constructor copies the
pointer, and only the postfix `++` clones what it points to. So iterators have values of their own
exactly as long as none is advanced that has a copy (`IteratorOp.valueSemantics_iff`).
-/

set_option autoImplicit false
set_option relaxedAutoImplicit false

namespace Sipc

open Library SharedCells

/-- The iterators of a program, in the order in which they were made, and what they point to. -/
abbrev Iterators := SharedCells PreOrderIterator

/-- What a program does with iterators. They are numbered in the order in which they are made. -/
inductive IteratorOp
  | begin (tree : SyntaxTree)
  | endOf (tree : SyntaxTree)
  | copy (i : ℕ)
  | preIncrement (i : ℕ)
  | postIncrement (i : ℕ)
  | dereference (i : ℕ)
  | equal (i j : ℕ)

/-- What an operation returns. -/
inductive IteratorResult
  | iterator (i : ℕ)
  | tree (t : SyntaxTree)
  | bool (b : Bool)

namespace IteratorOp

/-- `PreOrderIterator::operator*`. The top of an empty stack is undefined. -/
def top (iter : PreOrderIterator) : Option SyntaxTree :=
  iter.stack.head?

/-- The methods of `Iterator`, and `SyntaxTree::begin` and `end`. -/
def step (s : Iterators) : IteratorOp → Option (Iterators × IteratorResult)
  | begin tree => some (s.make (.make tree false), .iterator s.handles.length)
  | endOf tree => some (s.make (.make tree true), .iterator s.handles.length)
  | copy i =>
    match h : s.handles[i]? with
    | none => none
    | some iteratorImpl =>
      some (s.share iteratorImpl (List.mem_of_getElem? h), .iterator s.handles.length)
  | preIncrement i => do
    let iteratorImpl ← s.handles[i]?
    return (s.update PreOrderIterator.next iteratorImpl, .iterator i)
  | postIncrement i => do
    let iteratorImpl ← s.handles[i]?
    let cloned ← s.cells[iteratorImpl]?
    return ((s.make cloned).update PreOrderIterator.next iteratorImpl, .iterator s.handles.length)
  | dereference i => do
    let iter ← s.value i
    let tree ← top iter
    return (s, .tree tree)
  | equal i j => do
    let lhs ← s.value i
    let rhs ← s.value j
    return (s, .bool (lhs.areEqual rhs))

/-- The same for iterators that have values of their own. -/
def valueStep (vs : List PreOrderIterator) :
    IteratorOp → Option (List PreOrderIterator × IteratorResult)
  | begin tree => some (vs ++ [.make tree false], .iterator vs.length)
  | endOf tree => some (vs ++ [.make tree true], .iterator vs.length)
  | copy i => do
    let iter ← vs[i]?
    return (vs ++ [iter], .iterator vs.length)
  | preIncrement i => do
    let _ ← vs[i]?
    return (vs.modify i PreOrderIterator.next, .iterator i)
  | postIncrement i => do
    let iter ← vs[i]?
    return ((vs ++ [iter]).modify i PreOrderIterator.next, .iterator vs.length)
  | dereference i => do
    let iter ← vs[i]?
    let tree ← top iter
    return (vs, .tree tree)
  | equal i j => do
    let lhs ← vs[i]?
    let rhs ← vs[j]?
    return (vs, .bool (lhs.areEqual rhs))

/-- The iterator that an operation advances. -/
def advances : IteratorOp → Option ℕ
  | preIncrement i | postIncrement i => some i
  | _ => none

/-- The operations, one after the other, and what they return. -/
def run {σ : Type} (step : σ → IteratorOp → Option (σ × IteratorResult)) :
    σ → List IteratorOp → Option (σ × List IteratorResult)
  | s, [] => some (s, [])
  | s, op :: ops => do
    let (s, r) ← step s op
    let (s, rs) ← run step s ops
    return (s, r :: rs)

/-- The operation changes the position of no other iterator, and the iterator that postfix `++` returns
has the position from before. -/
structure KeepsOthers (op : IteratorOp) (s s' : Iterators) : Prop where
  others : ∀ i, op.advances = some i → ∀ j, j ≠ i → j < s.handles.length → s'.value j = s.value j
  returned : ∀ i, op = .postIncrement i → s'.value s.handles.length = s.value i

/-- What is advanced is at the end or has no copy. -/
def Separate (op : IteratorOp) (s : Iterators) : Prop :=
  ∀ i, op.advances = some i → (∀ iter, s.value i = some iter → iter.stack = []) ∨ s.Unshared i

/-- The program comes to the state `s`, and there the operation leads to `s'`. -/
def StepIn (ops : List IteratorOp) (s : Iterators) (op : IteratorOp) (s' : Iterators) : Prop :=
  ∃ done rest rs r, ops = done ++ op :: rest ∧ run step .empty done = some (s, rs) ∧
    step s op = some (s', r)

/-- In no step of the program does another iterator move. -/
def ValueSemantics (ops : List IteratorOp) : Prop :=
  ∀ s op s', StepIn ops s op s' → op.KeepsOthers s s'

/-- In every step of the program, what is advanced is at the end or has no copy. -/
def SeparateIn (ops : List IteratorOp) : Prop :=
  ∀ s op s', StepIn ops s op s' → op.Separate s

/-! ### One step -/

theorem next_of_stack_nil {iter : PreOrderIterator} (h : iter.stack = []) : iter.next = iter := by
  unfold PreOrderIterator.next
  rw [h]

/-- Before the end, `++` moves the iterator: a tree is not the only one below itself. -/
theorem stack_eq_nil_of_next {iter : PreOrderIterator} (h : iter.next = iter) : iter.stack = [] := by
  obtain ⟨tree, stack⟩ := iter
  cases stack with
  | nil => rfl
  | cons t stack =>
    rw [PreOrderIterator.next_eq] at h
    injection h with _ hstack
    have hsubtrees : t.getSubtrees = [t] :=
      List.append_cancel_right (hstack.trans List.singleton_append.symm)
    have ht : t ∈ t.getSubtrees := hsubtrees ▸ List.mem_singleton_self t
    exact absurd (SyntaxTree.isPreOrder_nodes.length_lt ht) (Nat.lt_irrefl _)

section Step

variable {s s' : Iterators} {op : IteratorOp} {r : IteratorResult} {i : ℕ}

/-- What is advanced is what the iterator points to. -/
theorem value_advance (hstep : step s op = some (s', r)) (hi : op.advances = some i) :
    ∃ k iter, s.handles[i]? = some k ∧ s.value i = some iter ∧ ∀ j < s.handles.length,
      s'.value j = if s.handles[j]? = some k then (s.value j).map PreOrderIterator.next
        else s.value j := by
  cases op with
  | preIncrement i' =>
    cases hi
    obtain ⟨k, hk, hs'⟩ := Option.bind_eq_some_iff.1 hstep
    cases hs'
    obtain ⟨k', iter, hk', hiter⟩ := exists_handle (List.getElem?_eq_some_iff.1 hk).1
    cases hk.symm.trans hk'
    exact ⟨k, iter, hk, (value_of_handle hk).trans hiter, fun j _ ↦ value_update⟩
  | postIncrement i' =>
    cases hi
    obtain ⟨k, hk, hs'⟩ := Option.bind_eq_some_iff.1 hstep
    obtain ⟨iter, hiter, hs'⟩ := Option.bind_eq_some_iff.1 hs'
    cases hs'
    refine ⟨k, iter, hk, (value_of_handle hk).trans hiter, fun j hj ↦ ?_⟩
    have hhandle : (s.make iter).handles[j]? = s.handles[j]? := List.getElem?_append_left hj
    rw [value_update, hhandle, value_make, if_neg (Nat.ne_of_lt hj)]
  | _ => cases hi

/-- What postfix `++` returns is a clone. -/
theorem value_returned (hstep : step s (.postIncrement i) = some (s', r)) :
    s'.value s.handles.length = s.value i := by
  obtain ⟨k, hk, hs'⟩ := Option.bind_eq_some_iff.1 hstep
  obtain ⟨iter, hiter, hs'⟩ := Option.bind_eq_some_iff.1 hs'
  cases hs'
  have hlast : (s.make iter).handles[s.handles.length]? = some s.cells.length :=
    List.getElem?_concat_length
  have hnew : (s.make iter).handles[s.handles.length]? ≠ some k := by
    rw [hlast]
    rintro ⟨⟩
    exact Nat.lt_irrefl _ (List.getElem?_eq_some_iff.1 hiter).1
  rw [value_update_of_ne hnew, value_make, if_pos rfl, value_of_handle hk, hiter]

theorem keepsOthers_iff (hstep : step s op = some (s', r)) : op.KeepsOthers s s' ↔ op.Separate s := by
  constructor
  · intro h i hi
    obtain ⟨k, iter, hk, hiter, hvalue⟩ := value_advance hstep hi
    by_cases hshared : s.Unshared i
    · exact Or.inr hshared
    · unfold Unshared at hshared
      push Not at hshared
      obtain ⟨j, hji, hj, hsame⟩ := hshared
      -- The other handle of the cell has the same position before, and also after, the step.
      have hjk : s.handles[j]? = some k := hsame.trans hk
      have hkept := h.others i hi j hji hj
      have hjvalue : s.value j = s.value i := (value_of_handle hjk).trans (value_of_handle hk).symm
      rw [hvalue j hj, if_pos hjk, hjvalue, hiter] at hkept
      refine Or.inl fun iter' hiter' ↦ ?_
      cases hiter.symm.trans hiter'
      exact stack_eq_nil_of_next (Option.some.inj hkept)
  · intro h
    refine ⟨fun i hi j hji hj ↦ ?_, fun i hi ↦ ?_⟩
    · obtain ⟨k, iter, hk, hiter, hvalue⟩ := value_advance hstep hi
      rw [hvalue j hj]
      split_ifs with hjk
      · rcases h i hi with hend | hunshared
        · have hjvalue : s.value j = s.value i := (value_of_handle hjk).trans (value_of_handle hk).symm
          rw [hjvalue, hiter, Option.map_some, next_of_stack_nil (hend iter hiter)]
        · exact absurd (hjk.trans hk.symm) (hunshared j hji hj)
      · rfl
    · subst hi
      exact value_returned hstep

end Step

/-! ### Programs -/

/-- Iterators have values of their own exactly if none is advanced, before the end, that has a copy. -/
theorem valueSemantics_iff (ops : List IteratorOp) : ValueSemantics ops ↔ SeparateIn ops := by
  constructor
  · rintro h s op s' ⟨done, rest, rs, r, hops, hrun, hstep⟩
    exact (keepsOthers_iff hstep).1 (h s op s' ⟨done, rest, rs, r, hops, hrun, hstep⟩)
  · rintro h s op s' ⟨done, rest, rs, r, hops, hrun, hstep⟩
    exact (keepsOthers_iff hstep).2 (h s op s' ⟨done, rest, rs, r, hops, hrun, hstep⟩)

/-- `main() { return 0; }` -/
def returnTree : SyntaxTree :=
  .program "" {
    functions := [⟨0, ⟨1, "main"⟩, [], [], [], ⟨2, .numberExpr 3 0⟩, false⟩]
    distinct := by decide }

/-- A copy moves with the iterator that is advanced. -/
theorem not_valueSemantics_copy : ¬ ValueSemantics [begin returnTree, copy 0, preIncrement 0] := by
  intro h
  have hkept := (h _ _ _ ⟨[begin returnTree, copy 0], [], _, _, rfl, rfl, rfl⟩).others 0 rfl 1
    (by decide) (by decide)
  have hroots := congrArg (Option.map fun iter ↦ iter.stack.map SyntaxTree.getRoot) hkept
  exact absurd hroots (by decide)

/-! ### The iterators as values -/

section Values

variable {s s' : Iterators} {op : IteratorOp} {r : IteratorResult} {vs : List PreOrderIterator}

/-- An iterator is advanced as a value if it is at the end or has no copy. -/
theorem represents_update (h : s.Represents vs) {i k : ℕ} (hi : s.handles[i]? = some k)
    (hseparate : (∀ iter, s.value i = some iter → iter.stack = []) ∨ s.Unshared i) :
    (s.update PreOrderIterator.next k).Represents (vs.modify i PreOrderIterator.next) := by
  rcases hseparate with hend | hunshared
  · -- Nothing is written.
    have hsame : ∀ j, s.handles[j]? = some k →
        (s.value j).map PreOrderIterator.next = s.value j := fun j hj ↦ by
      rw [value_of_handle hj, ← value_of_handle hi]
      cases hvalue : s.value i with
      | none => rfl
      | some iter => exact congrArg some (next_of_stack_nil (hend iter hvalue))
    intro j
    rw [value_update]
    by_cases hij : i = j
    · rw [← hij, if_pos hi, h, List.getElem?_modify_eq]
      rfl
    · rw [List.getElem?_modify_ne _ _ hij, ← h]
      split_ifs with hj
      · exact hsame j hj
      · rfl
  · exact h.update hi hunshared

theorem step_represents (h : s.Represents vs) (hseparate : op.Separate s)
    (hstep : step s op = some (s', r)) :
    ∃ vs', valueStep vs op = some (vs', r) ∧ s'.Represents vs' := by
  cases op with
  | begin tree =>
    cases hstep
    exact ⟨_, by rw [valueStep, h.length_eq], h.make⟩
  | endOf tree =>
    cases hstep
    exact ⟨_, by rw [valueStep, h.length_eq], h.make⟩
  | copy i =>
    rw [step] at hstep
    split at hstep
    · cases hstep
    · rename_i k hk
      cases hstep
      obtain ⟨k', iter, hk', hiter⟩ := exists_handle (List.getElem?_eq_some_iff.1 hk).1
      cases hk.symm.trans hk'
      have hvs : vs[i]? = some iter := (h i).symm.trans ((value_of_handle hk).trans hiter)
      exact ⟨_, by rw [valueStep, hvs, h.length_eq]; rfl, h.share hk hvs⟩
  | preIncrement i =>
    obtain ⟨k, hk, hs'⟩ := Option.bind_eq_some_iff.1 hstep
    cases hs'
    obtain ⟨k', iter, hk', hiter⟩ := exists_handle (List.getElem?_eq_some_iff.1 hk).1
    cases hk.symm.trans hk'
    have hvs : vs[i]? = some iter := (h i).symm.trans ((value_of_handle hk).trans hiter)
    exact ⟨_, by rw [valueStep, hvs]; rfl, represents_update h hk (hseparate i rfl)⟩
  | postIncrement i =>
    obtain ⟨k, hk, hs'⟩ := Option.bind_eq_some_iff.1 hstep
    obtain ⟨iter, hiter, hs'⟩ := Option.bind_eq_some_iff.1 hs'
    cases hs'
    have hi : i < s.handles.length := (List.getElem?_eq_some_iff.1 hk).1
    have hvs : vs[i]? = some iter := (h i).symm.trans ((value_of_handle hk).trans hiter)
    have hk' : (s.make iter).handles[i]? = some k := (List.getElem?_append_left hi).trans hk
    refine ⟨_, by rw [valueStep, hvs, h.length_eq]; rfl, represents_update h.make hk' ?_⟩
    rw [value_make, if_neg (Nat.ne_of_lt hi)]
    exact (hseparate i rfl).imp_right fun hunshared ↦ hunshared.make hi
  | dereference i =>
    obtain ⟨iter, hiter, hs'⟩ := Option.bind_eq_some_iff.1 hstep
    obtain ⟨tree, htree, hs'⟩ := Option.bind_eq_some_iff.1 hs'
    cases hs'
    exact ⟨vs, by rw [valueStep, ← h i, hiter, Option.bind_eq_bind, Option.bind_some, htree]; rfl, h⟩
  | equal i j =>
    obtain ⟨lhs, hlhs, hs'⟩ := Option.bind_eq_some_iff.1 hstep
    obtain ⟨rhs, hrhs, hs'⟩ := Option.bind_eq_some_iff.1 hs'
    cases hs'
    exact ⟨vs, by rw [valueStep, ← h i, ← h j, hlhs, hrhs]; rfl, h⟩

/-- The last operation of a program. -/
theorem run_concat {σ : Type} {step : σ → IteratorOp → Option (σ × IteratorResult)} {s s₀ : σ}
    {ops : List IteratorOp} {rs : List IteratorResult} :
    run step s₀ (ops ++ [op]) = some (s, rs) ↔ ∃ s₁ rs₁ r, run step s₀ ops = some (s₁, rs₁) ∧
      step s₁ op = some (s, r) ∧ rs = rs₁ ++ [r] := by
  induction ops generalizing s₀ rs with
  | nil =>
    rw [List.nil_append, run, run]
    constructor
    · intro h
      obtain ⟨⟨s₁, r⟩, hstep, hrest⟩ := Option.bind_eq_some_iff.1 h
      cases hrest
      exact ⟨s₀, [], r, rfl, hstep, rfl⟩
    · rintro ⟨s₁, rs₁, r, h, hstep, rfl⟩
      cases h
      rw [hstep]
      rfl
  | cons o ops ih =>
    rw [List.cons_append, run, run]
    constructor
    · intro h
      obtain ⟨⟨s₁, r⟩, ho, hrest⟩ := Option.bind_eq_some_iff.1 h
      obtain ⟨⟨s₂, rs₂⟩, hrun, hlast⟩ := Option.bind_eq_some_iff.1 hrest
      cases hlast
      obtain ⟨s₃, rs₃, r', hops, hstep, rfl⟩ := ih.1 hrun
      refine ⟨s₃, r :: rs₃, r', ?_, hstep, rfl⟩
      rw [ho, Option.bind_eq_bind, Option.bind_some]
      dsimp only
      rw [hops]
      rfl
    · rintro ⟨s₃, rs₃, r', h, hstep, rfl⟩
      obtain ⟨⟨s₁, r⟩, ho, hrest⟩ := Option.bind_eq_some_iff.1 h
      obtain ⟨⟨s₂, rs₂⟩, hrun, hlast⟩ := Option.bind_eq_some_iff.1 hrest
      cases hlast
      have hops := ih.2 ⟨_, _, _, hrun, hstep, rfl⟩
      rw [ho, Option.bind_eq_bind, Option.bind_some]
      dsimp only
      rw [hops]
      rfl

/-- A program that advances no iterator that has a copy runs as if its iterators were values. -/
theorem SeparateIn.run_values {ops : List IteratorOp} (h : SeparateIn ops) {rs : List IteratorResult}
    (hrun : run step .empty ops = some (s, rs)) :
    ∃ vs, run valueStep [] ops = some (vs, rs) ∧ s.Represents vs := by
  induction ops using List.reverseRecOn generalizing s rs with
  | nil =>
    cases hrun
    exact ⟨[], rfl, fun _ ↦ rfl⟩
  | append_singleton ops op ih =>
    obtain ⟨s₁, rs₁, r, hops, hstep, rfl⟩ := run_concat.1 hrun
    have hprefix : SeparateIn ops := by
      rintro s o s' ⟨done, rest, rs, r, rfl, hdone, ho⟩
      exact h s o s' ⟨done, rest ++ [op], rs, r, by rw [List.append_assoc]; rfl, hdone, ho⟩
    obtain ⟨vs, hvs, hrepresents⟩ := ih hprefix hops
    obtain ⟨vs', hvs', hrepresents'⟩ := step_represents hrepresents
      (h s₁ op s ⟨ops, [], rs₁, r, rfl, hops, hstep⟩) hstep
    exact ⟨vs', run_concat.2 ⟨vs, rs₁, r, hvs, hvs', rfl⟩, hrepresents'⟩

end Values

end IteratorOp

end Sipc
