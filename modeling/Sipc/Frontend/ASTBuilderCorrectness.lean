import Sipc.Frontend.ASTBuilder

/-!
# What the AST builder builds

The builder gives the AST of a parse tree exactly where every literal fits an `int` and no
`nonShortCircuiting` alternative occurs (`ASTBuilder.build_image_iff`): for the latter there is no
method, so only the right operand is left. A method is followed by what it needs of the literals
(`Builds`), and its result is compared with the tree by `Built`.
-/

set_option autoImplicit false
set_option relaxedAutoImplicit false

namespace Sipc

open Library Library.Run

/-- A literal at the root fits an `int`. -/
def ExprContext.LiteralFits : ExprContext → Prop
  | .numExpr number | .negNumber number => number.value < 2 ^ 31
  | _ => True

/-- The builder has a method for the alternative at the root. -/
def ExprContext.HasMethod : ExprContext → Prop
  | .nonShortCircuiting _ _ _ => False
  | _ => True

/-! ### Rules for methods -/

section Rules

variable {α β : Type} {m : Build α} {f : α → Build β} {fit p q : Prop} {s : BuilderState}

/-- Started at `s`, the method returns exactly where `fit` holds, and then with what `Q` says. -/
structure Builds (m : Build α) (fit : Prop) (s : BuilderState) (Q : α → BuilderState → Prop) :
    Prop where
  returns : fit → ∃ a s', Returns m s a s'
  fit : ∀ a s', Returns m s a s' → fit
  post : ∀ a s', Returns m s a s' → Q a s'

theorem Builds.congr {Q : α → BuilderState → Prop} (h : Builds m p s Q) (hfit : p ↔ q) :
    Builds m q s Q :=
  propext hfit ▸ h

theorem Builds.imp {Q R : α → BuilderState → Prop} (h : Builds m fit s Q)
    (hQ : ∀ a s', Q a s' → R a s') : Builds m fit s R :=
  ⟨h.returns, h.fit, fun a s' hr ↦ hQ a s' (h.post a s' hr)⟩

theorem Builds.pure {a : α} {Q : α → BuilderState → Prop} (h : Q a s) :
    Builds (Pure.pure a) True s Q := by
  refine ⟨fun _ ↦ ⟨a, s, returns_pure.2 ⟨rfl, rfl⟩⟩, fun _ _ _ ↦ trivial, fun a' s' hr ↦ ?_⟩
  obtain ⟨rfl, rfl⟩ := returns_pure.1 hr
  exact h

theorem Builds.bind {Q : α → BuilderState → Prop} {R : β → BuilderState → Prop}
    (h : Builds m p s Q) (hf : ∀ a s₁, Q a s₁ → Builds (f a) q s₁ R) :
    Builds (m >>= f) (p ∧ q) s R where
  returns hfit := by
    obtain ⟨a, s₁, hm⟩ := h.returns hfit.1
    obtain ⟨b, s', hb⟩ := (hf a s₁ (h.post a s₁ hm)).returns hfit.2
    exact ⟨b, s', returns_bind.2 ⟨a, s₁, hm, hb⟩⟩
  fit b s' hr := by
    obtain ⟨a, s₁, hm, hb⟩ := returns_bind.1 hr
    exact ⟨h.fit a s₁ hm, (hf a s₁ (h.post a s₁ hm)).fit b s' hb⟩
  post b s' hr := by
    obtain ⟨a, s₁, hm, hb⟩ := returns_bind.1 hr
    exact (hf a s₁ (h.post a s₁ hm)).post b s' hb

/-- After a step that needs nothing of the literals. -/
theorem Builds.andThen {Q : α → BuilderState → Prop} {R : β → BuilderState → Prop}
    (h : Builds m True s Q) (hf : ∀ a s₁, Q a s₁ → Builds (f a) fit s₁ R) :
    Builds (m >>= f) fit s R :=
  (h.bind hf).congr (by rw [true_and])

theorem builds_access (g : BuilderState → α × BuilderState) :
    Builds (Run.access g) True s fun a s' ↦ g s = (a, s') :=
  ⟨fun _ ↦ ⟨_, _, returns_access.2 rfl⟩, fun _ _ _ ↦ trivial, fun _ _ hr ↦ returns_access.1 hr⟩

theorem builds_orFail {e : BuildError} {a : α} {o : Option α} (h : o = some a) :
    Builds (Run.orFail e o) True s fun a' s' ↦ a' = a ∧ s' = s := by
  subst h
  exact Builds.pure ⟨rfl, rfl⟩

theorem builds_readVisited {g : BuilderState → Option α} {a : α} (h : g s = some a) :
    Builds (readVisited g) True s fun a' s' ↦ a' = a ∧ s' = s := by
  refine (builds_access _).andThen fun o s₁ ho ↦ ?_
  cases ho
  exact builds_orFail h

theorem builds_makeShared :
    Builds makeShared True s fun n s' ↦ n = s.next ∧ s' = { s with next := s.next + 1 } := by
  refine (builds_access _).imp fun n s' h ↦ ?_
  cases h
  exact ⟨rfl, rfl⟩

theorem builds_stoi (n : Numeral) :
    Builds (stoi n) (n.value < 2 ^ 31) s fun i s' ↦ i.toInt = n.value ∧ s' = s := by
  unfold stoi
  by_cases h : n.value < 2 ^ 31
  · rw [if_pos h]
    refine (Builds.pure ⟨?_, rfl⟩).congr (iff_of_true trivial h)
    exact Int32.toInt_ofNat_of_lt h
  · rw [if_neg h]
    exact ⟨fun hf ↦ absurd hf h, fun _ _ hr ↦ absurd hr not_returns_fail,
      fun _ _ hr ↦ absurd hr not_returns_fail⟩

end Rules

/-! ### What is built -/

/-- While the next address went from `n` to `n'`, the nodes with the addresses `ids` were made. Their
shapes are those of the parse trees where these are `plain`, and else nodes were lost. -/
structure Built (n n' : NodeId) (ids : List NodeId) (shapes trees : List Shape) (plain : Prop) :
    Prop where
  le : n ≤ n'
  nodup : ids.Nodup
  ids_bounds : ∀ i ∈ ids, n ≤ i ∧ i < n'
  size_le : Shape.sizeList shapes ≤ Shape.sizeList trees
  shapes_eq : plain → shapes = trees
  size_lt : ¬ plain → Shape.sizeList shapes < Shape.sizeList trees
  lexical : Shape.LexicalList shapes

namespace Built

variable {n n₁ n' : NodeId} {ids ids' : List NodeId} {shapes shapes' trees trees' : List Shape}
  {plain plain' : Prop}

theorem shapes_eq_iff (h : Built n n' ids shapes trees plain) : shapes = trees ↔ plain := by
  refine ⟨fun heq ↦ ?_, h.shapes_eq⟩
  by_contra hp
  exact absurd (h.size_lt hp) (by rw [heq]; exact Nat.lt_irrefl _)

theorem congr (h : Built n n' ids shapes trees plain) (hp : plain ↔ plain') :
    Built n n' ids shapes trees plain' :=
  propext hp ▸ h

theorem nil : Built n n [] [] [] True where
  le := Nat.le_refl n
  nodup := List.nodup_nil
  ids_bounds := by simp
  size_le := Nat.le_refl _
  shapes_eq _ := rfl
  size_lt h := absurd trivial h
  lexical := trivial

theorem append (h : Built n n₁ ids shapes trees plain)
    (h' : Built n₁ n' ids' shapes' trees' plain') :
    Built n n' (ids ++ ids') (shapes ++ shapes') (trees ++ trees') (plain ∧ plain') where
  le := Nat.le_trans h.le h'.le
  nodup := by
    refine List.nodup_append.2 ⟨h.nodup, h'.nodup, fun i hi j hj hij ↦ ?_⟩
    have h₁ := (h.ids_bounds i hi).2
    rw [hij] at h₁
    exact Nat.lt_irrefl j (Nat.lt_of_lt_of_le h₁ (h'.ids_bounds j hj).1)
  ids_bounds i hi := by
    rcases List.mem_append.1 hi with hi | hi
    · exact ⟨(h.ids_bounds i hi).1, Nat.lt_of_lt_of_le (h.ids_bounds i hi).2 h'.le⟩
    · exact ⟨Nat.le_trans h.le (h'.ids_bounds i hi).1, (h'.ids_bounds i hi).2⟩
  size_le := by
    have h₁ := h.size_le
    have h₂ := h'.size_le
    rw [Shape.sizeList_append, Shape.sizeList_append]
    omega
  shapes_eq hp := by rw [h.shapes_eq hp.1, h'.shapes_eq hp.2]
  size_lt hp := by
    have h₁ := h.size_le
    have h₂ := h'.size_le
    rw [Shape.sizeList_append, Shape.sizeList_append]
    by_cases h₃ : plain
    · have h₄ := h'.size_lt fun h₄ ↦ hp ⟨h₃, h₄⟩
      omega
    · have h₄ := h.size_lt h₃
      omega
  lexical := Shape.lexicalList_append h.lexical h'.lexical

/-- A node is made after its children. -/
theorem node {label : NodeLabel} (hlabel : label.Lexical) (h : Built n n' ids shapes trees plain) :
    Built n (n' + 1) (n' :: ids) [.node label shapes] [.node label trees] plain where
  le := Nat.le_succ_of_le h.le
  nodup := List.nodup_cons.2 ⟨fun hi ↦ Nat.lt_irrefl _ (h.ids_bounds n' hi).2, h.nodup⟩
  ids_bounds i hi := by
    rcases List.mem_cons.1 hi with rfl | hi
    · exact ⟨h.le, Nat.lt_succ_self _⟩
    · exact ⟨(h.ids_bounds i hi).1, Nat.lt_succ_of_lt (h.ids_bounds i hi).2⟩
  size_le := by
    have h₁ := h.size_le
    simp only [Shape.sizeList, Shape.size]
    omega
  shapes_eq hp := by rw [h.shapes_eq hp]
  size_lt hp := by
    have h₁ := h.size_lt hp
    simp only [Shape.sizeList, Shape.size]
    omega
  lexical := ⟨⟨hlabel, h.lexical⟩, trivial⟩

/-- Only the last part is left of two. -/
theorem lost (label : NodeLabel) (h : Built n n₁ ids shapes trees plain)
    (h' : Built n₁ n' ids' shapes' trees' plain') :
    Built n n' ids' shapes' [.node label (trees ++ trees')] False where
  le := Nat.le_trans h.le h'.le
  nodup := h'.nodup
  ids_bounds i hi := ⟨Nat.le_trans h.le (h'.ids_bounds i hi).1, (h'.ids_bounds i hi).2⟩
  size_le := by
    have h₁ := h'.size_le
    simp only [Shape.sizeList, Shape.size, Shape.sizeList_append]
    omega
  shapes_eq := False.elim
  size_lt _ := by
    have h₁ := h'.size_le
    simp only [Shape.sizeList, Shape.size, Shape.sizeList_append]
    omega
  lexical := h'.lexical

end Built

theorem visitedNodes_visiting (n : ASTNode) (inner : List VisitEvent) :
    visitedNodes (visiting n inner) = n.node :: visitedNodes inner := by
  simp [visitedNodes, visiting]

theorem visitedNodes_append (as bs : List VisitEvent) :
    visitedNodes (as ++ bs) = visitedNodes as ++ visitedNodes bs :=
  List.filterMap_append

/-! ### Expressions -/

/-- What the method of an expression leaves in `visitedExpr`. -/
def ExprContext.Visited (c : ExprContext) (s : BuilderState) (_ : Unit) (s' : BuilderState) : Prop :=
  ∃ e, s'.visitedExpr = some e ∧
    Built s.next s'.next (visitedNodes e.accept) [e.shape] [c.shape] (∀ d ∈ c.exprs, d.HasMethod)

/-- The literals in an expression fit. -/
abbrev ExprContext.Fits (c : ExprContext) : Prop :=
  ∀ d ∈ c.exprs, d.LiteralFits

section Expressions

variable {β : Type} {s : BuilderState} {fit : Prop} {Q : β → BuilderState → Prop}

/-- The method of a child, whose result is read. -/
theorem Builds.visitExpr {c : ExprContext} {f : ASTExpr → Build β}
    (h : Builds c.visit c.Fits s (c.Visited s))
    (hf : ∀ e s₁, Built s.next s₁.next (visitedNodes e.accept) [e.shape] [c.shape]
      (∀ d ∈ c.exprs, d.HasMethod) → Builds (f e) fit s₁ Q) :
    Builds (do c.visit; let e ← readVisited BuilderState.visitedExpr; f e) (c.Fits ∧ fit) s Q := by
  refine h.bind fun _ s₁ hv ↦ ?_
  obtain ⟨e, he, hb⟩ := hv
  refine (builds_readVisited he).andThen fun e' s₂ h₂ ↦ ?_
  obtain ⟨rfl, rfl⟩ := h₂
  exact hf e' s₂ hb

/-- The node is made and left in `visitedExpr`. -/
theorem builds_makeExpr {c : ExprContext} {n : NodeId} {ids : List NodeId}
    {shapes trees : List Shape} {plain : Prop} {mk : NodeId → ASTExpr} (label : NodeLabel)
    (hlabel : label.Lexical) (h : Built n s.next ids shapes trees plain)
    (hids : visitedNodes (mk s.next).accept = s.next :: ids)
    (hshape : (mk s.next).shape = .node label shapes) (htree : c.shape = .node label trees)
    (hplain : plain ↔ ∀ d ∈ c.exprs, d.HasMethod) :
    Builds (do let node ← makeShared; setVisitedExpr (mk node)) True s
      fun _ s' ↦ ∃ e, s'.visitedExpr = some e ∧ Built n s'.next (visitedNodes e.accept) [e.shape]
        [c.shape] (∀ d ∈ c.exprs, d.HasMethod) := by
  refine builds_makeShared.andThen fun node s₁ h₁ ↦ ?_
  obtain ⟨rfl, rfl⟩ := h₁
  refine (builds_access _).imp fun _ s₂ h₂ ↦ ?_
  cases h₂
  refine ⟨_, rfl, ?_⟩
  rw [hids, hshape, htree]
  exact (h.node hlabel).congr hplain

theorem fits_leaf {c : ExprContext} (hexprs : c.exprs = [c]) : c.Fits ↔ c.LiteralFits := by
  rw [ExprContext.Fits, hexprs, List.forall_mem_singleton]

/-- An alternative without operands. -/
theorem builds_leaf (c : ExprContext) {mk : NodeId → ASTExpr} (label : NodeLabel)
    (hlabel : label.Lexical)
    (hids : visitedNodes (mk s.next).accept = [s.next]) (hshape : (mk s.next).shape = .node label [])
    (htree : c.shape = .node label []) (hexprs : c.exprs = [c]) (hc : c.HasMethod) :
    Builds (do let node ← makeShared; setVisitedExpr (mk node)) True s (c.Visited s) := by
  refine builds_makeExpr label hlabel .nil hids hshape htree (iff_of_true trivial ?_)
  rw [hexprs]
  simpa using hc

/-- An alternative with one operand. -/
theorem builds_unary {c arg : ExprContext} {mk : NodeId → ASTExpr → ASTExpr} (label : NodeLabel)
    (hlabel : label.Lexical)
    (h : ∀ s, Builds arg.visit arg.Fits s (arg.Visited s))
    (hids : ∀ n e, visitedNodes (mk n e).accept = n :: visitedNodes e.accept)
    (hshape : ∀ n e, (mk n e).shape = .node label [e.shape])
    (htree : c.shape = .node label [arg.shape]) (hexprs : c.exprs = c :: arg.exprs)
    (hc : c.HasMethod) (hl : c.LiteralFits) :
    Builds (do
      arg.visit
      let e ← readVisited BuilderState.visitedExpr
      let node ← makeShared
      setVisitedExpr (mk node e)) c.Fits s (c.Visited s) := by
  refine (Builds.visitExpr (h s) fun e s₁ he ↦
    builds_makeExpr label hlabel he (hids _ e) (hshape _ e) htree ?_).congr ?_
  · rw [hexprs, List.forall_mem_cons, and_iff_right hc]
  · rw [ExprContext.Fits, ExprContext.Fits, hexprs, List.forall_mem_cons, and_iff_right hl, and_true]

/-- An alternative with two operands. -/
theorem builds_binary {c left right : ExprContext} {mk : NodeId → ASTExpr → ASTExpr → ASTExpr}
    (label : NodeLabel) (hlabel : label.Lexical)
    (hleft : ∀ s, Builds left.visit left.Fits s (left.Visited s))
    (hright : ∀ s, Builds right.visit right.Fits s (right.Visited s))
    (hids : ∀ n e e', visitedNodes (mk n e e').accept =
      n :: (visitedNodes e.accept ++ visitedNodes e'.accept))
    (hshape : ∀ n e e', (mk n e e').shape = .node label [e.shape, e'.shape])
    (htree : c.shape = .node label [left.shape, right.shape])
    (hexprs : c.exprs = c :: (left.exprs ++ right.exprs)) (hc : c.HasMethod) (hl : c.LiteralFits) :
    Builds (do
      left.visit
      let e ← readVisited BuilderState.visitedExpr
      right.visit
      let e' ← readVisited BuilderState.visitedExpr
      let node ← makeShared
      setVisitedExpr (mk node e e')) c.Fits s (c.Visited s) := by
  refine (Builds.visitExpr (hleft s) fun e s₁ he ↦ Builds.visitExpr (hright s₁) fun e' s₂ he' ↦
    builds_makeExpr label hlabel (he.append he') (hids _ e e') (hshape _ e e') htree ?_).congr ?_
  · rw [hexprs, List.forall_mem_cons, List.forall_mem_append, and_iff_right hc]
  · rw [ExprContext.Fits, ExprContext.Fits, ExprContext.Fits, hexprs, List.forall_mem_cons,
      List.forall_mem_append, and_iff_right hl, and_true]

/-- An operator of `opString` that a binary node has. -/
theorem builds_visitBinaryExpr {c left right : ExprContext} {op : Token} (bop : BinaryOp)
    (hop : opString op = return bop.text)
    (hleft : ∀ s, Builds left.visit left.Fits s (left.Visited s))
    (hright : ∀ s, Builds right.visit right.Fits s (right.Visited s))
    (htree : c.shape = .node (.binary bop.text) [left.shape, right.shape])
    (hexprs : c.exprs = c :: (left.exprs ++ right.exprs)) (hc : c.HasMethod) (hl : c.LiteralFits) :
    Builds (visitBinaryExpr left.visit right.visit op) c.Fits s (c.Visited s) := by
  have hbop : (Run.orFail .nullPointer (BinaryOp.ofText bop.text) : Build BinaryOp) = return bop := by
    cases bop <;> rfl
  unfold visitBinaryExpr
  rw [hop]
  simp only [LawfulMonad.pure_bind, hbop]
  refine builds_binary (.binary bop.text) trivial hleft hright (fun n e e' ↦ ?_) (fun _ _ _ ↦ rfl) htree hexprs hc hl
  rw [ASTExpr.accept, visitedNodes_visiting, visitedNodes_append]
  rfl

end Expressions

mutual

/-- The method of an expression, by its alternatives. -/
theorem ExprContext.builds_visit :
    ∀ (c : ExprContext) (s : BuilderState), Builds c.visit c.Fits s (c.Visited s)
  | .funAppExpr function actuals, s => by
    refine (Builds.visitExpr (builds_visit function s) fun e s₁ he ↦
      (builds_visitList actuals s₁).bind fun es s₂ hes ↦
        builds_makeExpr .funApp trivial (he.append hes) ?_ rfl rfl ?_).congr ?_
    · rw [ASTExpr.accept, visitedNodes_visiting, visitedNodes_append]
      rfl
    · rw [exprs, List.forall_mem_cons, List.forall_mem_append]
      exact (and_iff_right trivial).symm
    · rw [Fits, Fits, exprs, List.forall_mem_cons, List.forall_mem_append, and_true]
      exact (and_iff_right trivial).symm
  | .accessExpr record field, s =>
    builds_unary (.access field.text) field.isIdentifier (builds_visit record)
      (fun _ _ ↦ by rw [ASTExpr.accept, visitedNodes_visiting]; rfl) (fun _ _ ↦ rfl) rfl rfl trivial
      trivial
  | .deRefExpr ptr, s =>
    builds_unary .deRef trivial (builds_visit ptr)
      (fun _ _ ↦ by rw [ASTExpr.accept, visitedNodes_visiting]; rfl) (fun _ _ ↦ rfl) rfl rfl trivial
      trivial
  | .arrayIndexingExpr arr idx, s =>
    builds_binary .indexing trivial (builds_visit arr) (builds_visit idx)
      (fun _ _ _ ↦ by rw [ASTExpr.accept, visitedNodes_visiting, visitedNodes_append]; rfl)
      (fun _ _ _ ↦ rfl) rfl rfl trivial trivial
  | .negNumber number, s => by
    refine ((builds_stoi number).bind fun val s₁ h ↦ ?_).congr
      (p := number.value < 2 ^ 31 ∧ True) ?_
    · obtain ⟨hval, rfl⟩ := h
      have hlt := val.toInt_lt
      have hneg : (-val).toInt = -(number.value : ℤ) := by
        rw [Int32.toInt_neg, hval] at *
        exact Int.bmod_eq_of_le (by omega) (by omega)
      refine builds_leaf (.negNumber number) (.number (-number.value)) ⟨by omega, by omega⟩ rfl ?_ rfl
        rfl trivial
      rw [ASTExpr.shape, hneg]
    · rw [fits_leaf rfl, and_true]
      rfl
  | .negExpr arg, s =>
    builds_unary .neg trivial (builds_visit arg)
      (fun _ _ ↦ by rw [ASTExpr.accept, visitedNodes_visiting]; rfl) (fun _ _ ↦ rfl) rfl rfl trivial
      trivial
  | .refExpr var, s =>
    builds_unary .ref trivial (builds_visit var)
      (fun _ _ ↦ by rw [ASTExpr.accept, visitedNodes_visiting]; rfl) (fun _ _ ↦ rfl) rfl rfl trivial
      trivial
  | .arrayLenExpr ptr, s =>
    builds_unary .arrayLen trivial (builds_visit ptr)
      (fun _ _ ↦ by rw [ASTExpr.accept, visitedNodes_visiting]; rfl) (fun _ _ ↦ rfl) rfl rfl trivial
      trivial
  | .notExpr arg, s =>
    builds_unary .not trivial (builds_visit arg)
      (fun _ _ ↦ by rw [ASTExpr.accept, visitedNodes_visiting]; rfl) (fun _ _ ↦ rfl) rfl rfl trivial
      trivial
  | .multiplicativeExpr ⟨op, hop⟩ left right, s => by
    simp only [List.mem_cons, List.not_mem_nil, or_false] at hop
    rcases hop with rfl | rfl | rfl
    · exact builds_visitBinaryExpr .mul rfl (builds_visit left) (builds_visit right) rfl rfl trivial
        trivial
    · exact builds_visitBinaryExpr .div rfl (builds_visit left) (builds_visit right) rfl rfl trivial
        trivial
    · exact builds_visitBinaryExpr .mod rfl (builds_visit left) (builds_visit right) rfl rfl trivial
        trivial
  | .additiveExpr ⟨op, hop⟩ left right, s => by
    simp only [List.mem_cons, List.not_mem_nil, or_false] at hop
    rcases hop with rfl | rfl
    · exact builds_visitBinaryExpr .add rfl (builds_visit left) (builds_visit right) rfl rfl trivial
        trivial
    · exact builds_visitBinaryExpr .sub rfl (builds_visit left) (builds_visit right) rfl rfl trivial
        trivial
  | .relationalExpr ⟨op, hop⟩ left right, s => by
    simp only [List.mem_cons, List.not_mem_nil, or_false] at hop
    rcases hop with rfl | rfl | rfl | rfl
    · exact builds_visitBinaryExpr .gt rfl (builds_visit left) (builds_visit right) rfl rfl trivial
        trivial
    · exact builds_visitBinaryExpr .le rfl (builds_visit left) (builds_visit right) rfl rfl trivial
        trivial
    · exact builds_visitBinaryExpr .ge rfl (builds_visit left) (builds_visit right) rfl rfl trivial
        trivial
    · exact builds_visitBinaryExpr .lt rfl (builds_visit left) (builds_visit right) rfl rfl trivial
        trivial
  | .equalityExpr ⟨op, hop⟩ left right, s => by
    simp only [List.mem_cons, List.not_mem_nil, or_false] at hop
    rcases hop with rfl | rfl
    · exact builds_visitBinaryExpr .eq rfl (builds_visit left) (builds_visit right) rfl rfl trivial
        trivial
    · exact builds_visitBinaryExpr .ne rfl (builds_visit left) (builds_visit right) rfl rfl trivial
        trivial
  | .ternaryExpr condition thenExpr elseExpr, s => by
    refine (Builds.visitExpr (builds_visit condition s) fun e s₁ he ↦
      Builds.visitExpr (builds_visit thenExpr s₁) fun e' s₂ he' ↦
      Builds.visitExpr (builds_visit elseExpr s₂) fun e'' s₃ he'' ↦
        builds_makeExpr .ternary trivial (he.append (he'.append he'')) ?_ rfl rfl ?_).congr ?_
    · rw [ASTExpr.accept, visitedNodes_visiting, visitedNodes_append, visitedNodes_append,
        List.append_assoc]
      rfl
    · rw [exprs, List.forall_mem_cons, List.forall_mem_append, List.forall_mem_append]
      exact (and_iff_right trivial).symm
    · rw [Fits, Fits, Fits, Fits, exprs, List.forall_mem_cons, List.forall_mem_append,
        List.forall_mem_append, and_true]
      exact (and_iff_right trivial).symm
  | .varExpr name, s =>
    (builds_leaf (.varExpr name) (.variable' name.text) name.isIdentifier rfl rfl rfl rfl trivial).congr
      (iff_of_true trivial ((fits_leaf rfl).2 trivial))
  | .numExpr number, s => by
    refine ((builds_stoi number).bind fun val s₁ h ↦ ?_).congr
      (p := number.value < 2 ^ 31 ∧ True) ?_
    · obtain ⟨hval, rfl⟩ := h
      have hlt := val.toInt_lt
      refine builds_leaf (.numExpr number) (.number number.value) ⟨by omega, by omega⟩ rfl ?_ rfl rfl
        trivial
      rw [ASTExpr.shape, hval]
    · rw [fits_leaf rfl, and_true]
      rfl
  | .inputExpr, s =>
    (builds_leaf .inputExpr .input trivial rfl rfl rfl rfl trivial).congr
      (iff_of_true trivial ((fits_leaf rfl).2 trivial))
  | .allocExpr initializer, s =>
    builds_unary .alloc trivial (builds_visit initializer)
      (fun _ _ ↦ by rw [ASTExpr.accept, visitedNodes_visiting]; rfl) (fun _ _ ↦ rfl) rfl rfl trivial
      trivial
  | .nullExpr, s =>
    (builds_leaf .nullExpr .null trivial rfl rfl rfl rfl trivial).congr
      (iff_of_true trivial ((fits_leaf rfl).2 trivial))
  | .boolExpr ⟨op, hmem⟩, s => by
    have hop : op = .kTrue ∨ op = .kFalse := by simpa using hmem
    rcases hop with rfl | rfl
    · exact (builds_leaf (.boolExpr ⟨_, hmem⟩) (.bool true) trivial rfl rfl rfl rfl trivial).congr
        (iff_of_true trivial ((fits_leaf rfl).2 trivial))
    · exact (builds_leaf (.boolExpr ⟨_, hmem⟩) (.bool false) trivial rfl rfl rfl rfl trivial).congr
        (iff_of_true trivial ((fits_leaf rfl).2 trivial))
  | .recordRule fields, s => by
    refine ((builds_visitFields fields s).bind fun fs s₁ hfs ↦
      builds_makeExpr .record trivial hfs ?_ rfl rfl ?_).congr ?_
    · rw [ASTExpr.accept, visitedNodes_visiting]
      rfl
    · rw [exprs, List.forall_mem_cons]
      exact (and_iff_right trivial).symm
    · rw [Fits, exprs, List.forall_mem_cons, and_true]
      exact (and_iff_right trivial).symm
  | .arrayLiteral elements, s => by
    refine ((builds_visitList elements s).bind fun es s₁ hes ↦
      builds_makeExpr .array trivial hes ?_ rfl rfl ?_).congr ?_
    · rw [ASTExpr.accept, visitedNodes_visiting]
      rfl
    · rw [exprs, List.forall_mem_cons]
      exact (and_iff_right trivial).symm
    · rw [Fits, exprs, List.forall_mem_cons, and_true]
      exact (and_iff_right trivial).symm
  | .arrayOfExpr e1 e2, s =>
    builds_binary .arrayOf trivial (builds_visit e1) (builds_visit e2)
      (fun _ _ _ ↦ by rw [ASTExpr.accept, visitedNodes_visiting, visitedNodes_append]; rfl)
      (fun _ _ _ ↦ rfl) rfl rfl trivial trivial
  | .nonShortCircuiting op left right, s => by
    refine ((builds_visit left s).bind fun _ s₁ hv ↦ (builds_visit right s₁).imp ?_).congr ?_
    · rintro - s' ⟨e', he', hb'⟩
      obtain ⟨e, -, hb⟩ := hv
      refine ⟨e', he', (hb.lost _ hb').congr ?_⟩
      rw [exprs, List.forall_mem_cons]
      exact (and_iff_left_of_imp False.elim).symm
    · rw [Fits, Fits, Fits, exprs, List.forall_mem_cons, List.forall_mem_append]
      exact (and_iff_right trivial).symm
  | .boolOps ⟨op, hop⟩ left right, s => by
    simp only [List.mem_cons, List.not_mem_nil, or_false] at hop
    rcases hop with rfl | rfl
    · exact builds_visitBinaryExpr .and rfl (builds_visit left) (builds_visit right) rfl rfl trivial
        trivial
    · exact builds_visitBinaryExpr .or rfl (builds_visit left) (builds_visit right) rfl rfl trivial
        trivial
  | .parenExpr expr, s => by
    refine ((builds_visit expr s).imp ?_).congr ?_
    · rintro - s' ⟨e, he, hb⟩
      refine ⟨e, he, hb.congr ?_⟩
      rw [exprs, List.forall_mem_cons]
      exact (and_iff_right trivial).symm
    · rw [Fits, Fits, exprs, List.forall_mem_cons]
      exact (and_iff_right trivial).symm

/-- The loop over expressions. -/
theorem ExprContext.builds_visitList : ∀ (cs : List ExprContext) (s : BuilderState),
    Builds (ExprContext.visitList cs) (∀ d ∈ exprsList cs, d.LiteralFits) s fun es s' ↦
      Built s.next s'.next (visitedNodes (ASTExpr.acceptList es)) (ASTExpr.shapeList es)
        (ExprContext.shapeList cs) (∀ d ∈ exprsList cs, d.HasMethod)
  | [], s => (Builds.pure (Built.nil.congr (by simp [exprsList]))).congr (by simp [exprsList])
  | c :: cs, s => by
    refine (Builds.visitExpr (builds_visit c s) fun e s₁ he ↦
      (builds_visitList cs s₁).bind fun es s₂ hes ↦ Builds.pure ?_).congr ?_
    · rw [ASTExpr.acceptList, visitedNodes_append]
      exact (he.append hes).congr (by rw [exprsList, List.forall_mem_append])
    · rw [Fits, exprsList, List.forall_mem_append, and_true]

/-- The loop over the fields of a record. -/
theorem ExprContext.builds_visitFields : ∀ (cs : List FieldExprContext) (s : BuilderState),
    Builds (ExprContext.visitFields cs) (∀ d ∈ exprsFields cs, d.LiteralFits) s fun fs s' ↦
      Built s.next s'.next (visitedNodes (ASTExpr.acceptFields fs)) (ASTExpr.shapeFields fs)
        (ExprContext.shapeFields cs) (∀ d ∈ exprsFields cs, d.HasMethod)
  | [], s => (Builds.pure (Built.nil.congr (by simp [exprsFields]))).congr (by simp [exprsFields])
  | .mk field initializer :: cs, s => by
    refine (Builds.visitExpr (builds_visit initializer s) fun e s₁ he ↦
      builds_makeShared.andThen fun node s₂ h₂ ↦ (builds_access _).andThen fun _ s₃ h₃ ↦ ?_).congr ?_
      (p := initializer.Fits ∧ (∀ d ∈ exprsFields cs, d.LiteralFits) ∧ True)
    · obtain ⟨rfl, rfl⟩ := h₂
      cases h₃
      refine (builds_readVisited (g := BuilderState.visitedFieldExpr) rfl).andThen fun _ s₄ h₄ ↦ ?_
      obtain ⟨rfl, rfl⟩ := h₄
      refine (builds_visitFields cs _).bind fun fs s₅ hfs ↦ Builds.pure ?_
      rw [ASTExpr.acceptFields, visitedNodes_append, visitedNodes_visiting]
      have hfield : (NodeLabel.field field.text).Lexical := field.isIdentifier
      exact ((he.node hfield).append hfs).congr (by rw [exprsFields, List.forall_mem_append])
    · rw [Fits, exprsFields, List.forall_mem_append, and_true]

end

/-! ### Statements -/

/-- What the method of a statement leaves in `visitedStmt`. -/
def StatementContext.Visited (c : StatementContext) (s : BuilderState) (_ : Unit)
    (s' : BuilderState) : Prop :=
  ∃ stmt, s'.visitedStmt = some stmt ∧
    Built s.next s'.next (visitedNodes stmt.accept) [stmt.shape] [c.shape]
      (∀ d ∈ c.exprs, d.HasMethod)

/-- The literals in a statement fit. -/
abbrev StatementContext.Fits (c : StatementContext) : Prop :=
  ∀ d ∈ c.exprs, d.LiteralFits

section Statements

variable {β : Type} {s : BuilderState} {fit : Prop} {Q : β → BuilderState → Prop}

/-- The method of a nested statement, whose result is read. -/
theorem Builds.visitStmt {c : StatementContext} {f : ASTStmt → Build β}
    (h : Builds c.visit c.Fits s (c.Visited s))
    (hf : ∀ stmt s₁, Built s.next s₁.next (visitedNodes stmt.accept) [stmt.shape] [c.shape]
      (∀ d ∈ c.exprs, d.HasMethod) → Builds (f stmt) fit s₁ Q) :
    Builds (do c.visit; let stmt ← readVisited BuilderState.visitedStmt; f stmt) (c.Fits ∧ fit) s
      Q := by
  refine h.bind fun _ s₁ hv ↦ ?_
  obtain ⟨stmt, hstmt, hb⟩ := hv
  refine (builds_readVisited hstmt).andThen fun stmt' s₂ h₂ ↦ ?_
  obtain ⟨rfl, rfl⟩ := h₂
  exact hf stmt' s₂ hb

/-- The node is made and left in `visitedStmt`. -/
theorem builds_makeStmt {c : StatementContext} {n : NodeId} {ids : List NodeId}
    {shapes trees : List Shape} {plain : Prop} {mk : NodeId → ASTStmt} (label : NodeLabel)
    (hlabel : label.Lexical) (h : Built n s.next ids shapes trees plain)
    (hids : visitedNodes (mk s.next).accept = s.next :: ids)
    (hshape : (mk s.next).shape = .node label shapes) (htree : c.shape = .node label trees)
    (hplain : plain ↔ ∀ d ∈ c.exprs, d.HasMethod) :
    Builds (do let node ← makeShared; setVisitedStmt (mk node)) True s
      fun _ s' ↦ ∃ stmt, s'.visitedStmt = some stmt ∧ Built n s'.next (visitedNodes stmt.accept)
        [stmt.shape] [c.shape] (∀ d ∈ c.exprs, d.HasMethod) := by
  refine builds_makeShared.andThen fun node s₁ h₁ ↦ ?_
  obtain ⟨rfl, rfl⟩ := h₁
  refine (builds_access _).imp fun _ s₂ h₂ ↦ ?_
  cases h₂
  refine ⟨_, rfl, ?_⟩
  rw [hids, hshape, htree]
  exact (h.node hlabel).congr hplain

end Statements

mutual

/-- The method of a statement, by its forms. -/
theorem StatementContext.builds_visit :
    ∀ (c : StatementContext) (s : BuilderState), Builds c.visit c.Fits s (c.Visited s)
  | .blockStmt stmts, s => by
    refine ((builds_visitList stmts s).bind fun ss s₁ hss ↦
      builds_makeStmt .block trivial hss ?_ rfl rfl Iff.rfl).congr (and_iff_left trivial)
    rw [ASTStmt.accept, visitedNodes_visiting]
    rfl
  | .assignStmt lhs rhs, s => by
    refine (Builds.visitExpr (lhs.builds_visit s) fun e s₁ he ↦
      Builds.visitExpr (rhs.builds_visit s₁) fun e' s₂ he' ↦
        builds_makeStmt .assign trivial (he.append he') ?_ rfl rfl List.forall_mem_append.symm).congr ?_
    · rw [ASTStmt.accept, visitedNodes_visiting, visitedNodes_append]
      rfl
    · simp only [Fits, exprs, List.forall_mem_append, and_true]
  | .updateStmt arg ⟨op, hmem⟩, s => by
    have hop : op = .mm ∨ op = .pp := by simpa using hmem
    have hstring : opString op = return op.text := by rcases hop with rfl | rfl <;> rfl
    simp only [visit, hstring, LawfulMonad.pure_bind]
    refine (Builds.visitExpr (arg.builds_visit s) fun e s₁ he ↦
        builds_makeStmt (.update (op = .pp)) trivial he ?_ ?_ rfl Iff.rfl).congr (and_iff_left trivial)
    · rw [ASTStmt.accept, visitedNodes_visiting]
      rfl
    · rcases hop with rfl | rfl <;> rfl
  | .whileStmt condition body, s => by
    refine (Builds.visitExpr (condition.builds_visit s) fun e s₁ he ↦
      Builds.visitStmt (builds_visit body s₁) fun b s₂ hb ↦
        builds_makeStmt .while' trivial (he.append hb) ?_ rfl rfl List.forall_mem_append.symm).congr ?_
    · rw [ASTStmt.accept, visitedNodes_visiting, visitedNodes_append]
      rfl
    · simp only [Fits, exprs, List.forall_mem_append, and_true]
  | .forByStmt item rangeStart rangeEnd increment body, s => by
    refine (Builds.visitExpr (item.builds_visit s) fun i s₁ hi ↦
      Builds.visitExpr (rangeStart.builds_visit s₁) fun a s₂ ha ↦
      Builds.visitExpr (rangeEnd.builds_visit s₂) fun b s₃ hb ↦
      Builds.visitExpr (increment.builds_visit s₃) fun c s₄ hc ↦
      Builds.visitStmt (builds_visit body s₄) fun d s₅ hd ↦
        builds_makeStmt .forBy trivial (hi.append (ha.append (hb.append (hc.append hd)))) ?_ rfl rfl
          ?_).congr ?_
    · simp only [ASTStmt.accept, ForDomain.accept, visitedNodes_visiting, visitedNodes_append,
        List.append_assoc]
      rfl
    · simp only [exprs, List.forall_mem_append]
    · simp only [Fits, exprs, List.forall_mem_append, and_true]
  | .forRangeStmt item rangeStart rangeEnd body, s => by
    refine (Builds.visitExpr (item.builds_visit s) fun i s₁ hi ↦
      Builds.visitExpr (rangeStart.builds_visit s₁) fun a s₂ ha ↦
      Builds.visitExpr (rangeEnd.builds_visit s₂) fun b s₃ hb ↦
      Builds.visitStmt (builds_visit body s₃) fun d s₄ hd ↦
        builds_makeStmt .forRange trivial (hi.append (ha.append (hb.append hd))) ?_ rfl rfl ?_).congr ?_
    · simp only [ASTStmt.accept, ForDomain.accept, visitedNodes_visiting, visitedNodes_append,
        List.append_assoc]
      rfl
    · simp only [exprs, List.forall_mem_append]
    · simp only [Fits, exprs, List.forall_mem_append, and_true]
  | .forInStmt item iterator body, s => by
    refine (Builds.visitExpr (item.builds_visit s) fun i s₁ hi ↦
      Builds.visitExpr (iterator.builds_visit s₁) fun a s₂ ha ↦
      Builds.visitStmt (builds_visit body s₂) fun d s₃ hd ↦
        builds_makeStmt .forIn' trivial (hi.append (ha.append hd)) ?_ rfl rfl ?_).congr ?_
    · simp only [ASTStmt.accept, ForDomain.accept, visitedNodes_visiting, visitedNodes_append,
        List.append_assoc]
      rfl
    · simp only [exprs, List.forall_mem_append]
    · simp only [Fits, exprs, List.forall_mem_append, and_true]
  | .ifStmt condition thenStmt, s => by
    refine (Builds.visitExpr (condition.builds_visit s) fun e s₁ he ↦
      Builds.visitStmt (builds_visit thenStmt s₁) fun b s₂ hb ↦
        builds_makeStmt .if' trivial (he.append hb) ?_ rfl rfl List.forall_mem_append.symm).congr ?_
    · rw [ASTStmt.accept, visitedNodes_visiting, visitedNodes_append]
      rfl
    · simp only [Fits, exprs, List.forall_mem_append, and_true]
  | .ifElseStmt condition thenStmt elseStmt, s => by
    refine (Builds.visitExpr (condition.builds_visit s) fun e s₁ he ↦
      Builds.visitStmt (builds_visit thenStmt s₁) fun b s₂ hb ↦
      Builds.visitStmt (builds_visit elseStmt s₂) fun c s₃ hc ↦
        builds_makeStmt .ifElse trivial (he.append (hb.append hc)) ?_ rfl rfl ?_).congr ?_
    · simp only [ASTStmt.accept, visitedNodes_visiting, visitedNodes_append, List.append_assoc]
      rfl
    · simp only [exprs, List.forall_mem_append]
    · simp only [Fits, exprs, List.forall_mem_append, and_true]
  | .outputStmt arg, s => by
    refine (Builds.visitExpr (arg.builds_visit s) fun e s₁ he ↦
        builds_makeStmt .output trivial he ?_ rfl rfl Iff.rfl).congr (and_iff_left trivial)
    rw [ASTStmt.accept, visitedNodes_visiting]
    rfl
  | .errorStmt arg, s => by
    refine (Builds.visitExpr (arg.builds_visit s) fun e s₁ he ↦
        builds_makeStmt .error trivial he ?_ rfl rfl Iff.rfl).congr (and_iff_left trivial)
    rw [ASTStmt.accept, visitedNodes_visiting]
    rfl

/-- The loop over statements. -/
theorem StatementContext.builds_visitList : ∀ (cs : List StatementContext) (s : BuilderState),
    Builds (StatementContext.visitList cs) (∀ d ∈ exprsList cs, d.LiteralFits) s fun ss s' ↦
      Built s.next s'.next (visitedNodes (ASTStmt.acceptList ss)) (ASTStmt.shapeList ss)
        (StatementContext.shapeList cs) (∀ d ∈ exprsList cs, d.HasMethod)
  | [], s => (Builds.pure (Built.nil.congr (by simp [exprsList]))).congr (by simp [exprsList])
  | c :: cs, s => by
    refine (Builds.visitStmt (builds_visit c s) fun stmt s₁ he ↦
      (builds_visitList cs s₁).bind fun ss s₂ hss ↦ Builds.pure ?_).congr ?_
    · rw [ASTStmt.acceptList, visitedNodes_append]
      exact (he.append hss).congr (by rw [exprsList, List.forall_mem_append])
    · rw [Fits, exprsList, List.forall_mem_append, and_true]

end

/-! ### Functions and programs -/

/-- A loop that collects what its steps build. -/
theorem builds_mapM {C α : Type} {f : C → Build α} {fits plain : C → Prop}
    {accept : α → List VisitEvent} {shape : α → Shape} {tree : C → Shape}
    (h : ∀ c s, Builds (f c) (fits c) s fun a s' ↦
      Built s.next s'.next (visitedNodes (accept a)) [shape a] [tree c] (plain c)) :
    ∀ (cs : List C) (s : BuilderState), Builds (cs.mapM f) (∀ c ∈ cs, fits c) s fun as s' ↦
      Built s.next s'.next (visitedNodes (as.flatMap accept)) (as.map shape) (cs.map tree)
        (∀ c ∈ cs, plain c)
  | [], s => by
    rw [List.mapM_nil]
    exact (Builds.pure (Built.nil.congr (by simp))).congr (by simp)
  | c :: cs, s => by
    rw [List.mapM_cons]
    refine ((h c s).bind fun a s₁ ha ↦ (builds_mapM h cs s₁).bind fun as s₂ has ↦
      Builds.pure ?_).congr ?_
    · rw [List.flatMap_cons, visitedNodes_append]
      exact (ha.append has).congr List.forall_mem_cons.symm
    · rw [List.forall_mem_cons, and_true]

theorem builds_visitNameDeclaration (x : Identifier) (s : BuilderState) :
    Builds (do visitNameDeclaration x; readVisited BuilderState.visitedDeclNode) True s fun d s' ↦
      Built s.next s'.next (visitedNodes d.accept) [d.shape] [nameShape x] True := by
  unfold visitNameDeclaration
  rw [LawfulMonad.bind_assoc]
  refine builds_makeShared.andThen fun node s₁ h₁ ↦ (builds_access _).andThen fun _ s₂ h₂ ↦ ?_
  obtain ⟨rfl, rfl⟩ := h₁
  cases h₂
  refine (builds_readVisited (g := BuilderState.visitedDeclNode) rfl).imp fun d s₃ h₃ ↦ ?_
  obtain ⟨rfl, rfl⟩ := h₃
  exact Built.nil.node (show (NodeLabel.declNode x.text).Lexical from x.isIdentifier)

theorem builds_visitNameDeclarations (xs : List Identifier) (s : BuilderState) :
    Builds (visitNameDeclarations xs) True s fun ds s' ↦
      Built s.next s'.next (visitedNodes (ds.flatMap ASTDeclNode.accept)) (ds.map ASTDeclNode.shape)
        (xs.map nameShape) True :=
  ((builds_mapM builds_visitNameDeclaration xs s).imp fun _ _ h ↦ h.congr (by simp)).congr (by simp)

theorem DeclarationContext.builds_visit (c : DeclarationContext) (s : BuilderState) :
    Builds (do c.visit; readVisited BuilderState.visitedDeclStmt) True s fun d s' ↦
      Built s.next s'.next (visitedNodes d.accept) [d.shape] [c.shape] True := by
  unfold DeclarationContext.visit
  rw [LawfulMonad.bind_assoc]
  refine (builds_visitNameDeclarations c.names s).andThen fun ds s₁ hds ↦ ?_
  rw [LawfulMonad.bind_assoc]
  refine builds_makeShared.andThen fun node s₂ h₂ ↦ (builds_access _).andThen fun _ s₃ h₃ ↦ ?_
  obtain ⟨rfl, rfl⟩ := h₂
  cases h₃
  refine (builds_readVisited (g := BuilderState.visitedDeclStmt) rfl).imp fun d s₄ h₄ ↦ ?_
  obtain ⟨rfl, rfl⟩ := h₄
  rw [ASTDeclStmt.accept, visitedNodes_visiting]
  exact hds.node (show NodeLabel.declStmt.Lexical from trivial)

/-- After a method whose result is read. -/
theorem Builds.bindRead {α β : Type} {m : Build Unit} {g : BuilderState → Option α}
    {f : α → Build β} {p q : Prop} {s : BuilderState} {Q : α → BuilderState → Prop}
    {R : β → BuilderState → Prop} (h : Builds (do m; readVisited g) p s Q)
    (hf : ∀ a s₁, Q a s₁ → Builds (f a) q s₁ R) :
    Builds (do m; let a ← readVisited g; f a) (p ∧ q) s R := by
  rw [← LawfulMonad.bind_assoc]
  exact h.bind hf

theorem builds_visitReturnStmt (c : ExprContext) (s : BuilderState) :
    Builds (do visitReturnStmt c; readVisited BuilderState.visitedReturnStmt) c.Fits s fun r s' ↦
      Built s.next s'.next (visitedNodes r.accept) [r.shape] [.node .return' [c.shape]]
        (∀ d ∈ c.exprs, d.HasMethod) := by
  unfold visitReturnStmt
  simp only [LawfulMonad.bind_assoc]
  refine (Builds.visitExpr (c.builds_visit s) fun e s₁ he ↦ builds_makeShared.andThen
    fun node s₂ h₂ ↦ (builds_access _).andThen fun _ s₃ h₃ ↦ ?_).congr (and_iff_left trivial)
  obtain ⟨rfl, rfl⟩ := h₂
  cases h₃
  refine (builds_readVisited (g := BuilderState.visitedReturnStmt) rfl).imp fun r s₄ h₄ ↦ ?_
  obtain ⟨rfl, rfl⟩ := h₄
  rw [ASTReturnStmt.accept, visitedNodes_visiting]
  exact he.node (show NodeLabel.return'.Lexical from trivial)

theorem FunctionContext.builds_visit (c : FunctionContext) (s : BuilderState) :
    Builds (do c.visit; readVisited BuilderState.visitedFunction) (∀ d ∈ c.exprs, d.LiteralFits) s
      fun f s' ↦ Built s.next s'.next (visitedNodes f.accept) [f.shape] [c.shape]
        (∀ d ∈ c.exprs, d.HasMethod) := by
  unfold FunctionContext.visit
  simp only [LawfulMonad.bind_assoc]
  refine ((builds_visitNameDeclaration c.name s).bindRead fun d s₁ hd ↦
    (builds_visitNameDeclarations c.formals s₁).bind fun ds s₂ hds ↦
    (builds_mapM DeclarationContext.builds_visit c.declarations s₂).bind fun ss s₃ hss ↦
    (StatementContext.builds_visitList c.statements s₃).bind fun body s₄ hbody ↦
    (builds_visitReturnStmt c.returned s₄).bindRead fun r s₅ hr ↦
    builds_makeShared.andThen fun node s₆ h₆ ↦ (builds_access _).andThen fun _ s₇ h₇ ↦ ?_).congr ?_
    (p := True ∧ True ∧ (∀ d ∈ c.declarations, True) ∧ _ ∧ _ ∧ True)
  · obtain ⟨rfl, rfl⟩ := h₆
    cases h₇
    refine (builds_readVisited (g := BuilderState.visitedFunction) rfl).imp fun f s₈ h₈ ↦ ?_
    obtain ⟨rfl, rfl⟩ := h₈
    have h := (hd.append (hds.append (hss.append (hbody.append hr)))).node
      (show (NodeLabel.function c.poly).Lexical from trivial)
    simp only [ASTFunction.accept, visitedNodes_visiting, visitedNodes_append, List.append_assoc]
    simp only [ASTFunction.shape, FunctionContext.shape, List.append_assoc, List.cons_append]
    refine h.congr ?_
    simp only [FunctionContext.exprs, List.forall_mem_append, true_and, imp_true_iff]
  · simp only [FunctionContext.exprs, List.forall_mem_append, true_and, and_true, imp_true_iff]

/-- What is left of a program. -/
theorem ASTBuilder.builds_build (t : ProgramContext) (s : BuilderState) :
    Builds (ASTBuilder.build t) (∀ c ∈ t.exprs, c.LiteralFits) s fun program s' ↦
      Built s.next s'.next (visitedNodes program.accept) program.shapes t.shapes
        (∀ c ∈ t.exprs, c.HasMethod) := by
  unfold ASTBuilder.build
  refine (Builds.bind (q := True) (builds_mapM FunctionContext.builds_visit t.functions s)
    fun fs s₁ hfs ↦ ?_).congr ?_
  · rw [dif_pos hfs.nodup]
    refine Builds.pure (hfs.congr ?_)
    simp only [ProgramContext.exprs, List.forall_mem_flatMap]
  · simp only [ProgramContext.exprs, List.forall_mem_flatMap, and_true]

/-- The AST builder gives the structural image of a parse tree exactly where every literal fits an
`int` and every alternative has a method. -/
theorem ASTBuilder.build_image_iff (t : ProgramContext) :
    (∃ program s', Returns (ASTBuilder.build t) .initial program s' ∧ program.shapes = t.shapes) ↔
      ∀ c ∈ t.exprs, c.LiteralFits ∧ c.HasMethod := by
  have hbuild := ASTBuilder.builds_build t .initial
  constructor
  · rintro ⟨program, s', hr, heq⟩
    have hplain := (hbuild.post program s' hr).shapes_eq_iff.1 heq
    exact fun c hc ↦ ⟨hbuild.fit program s' hr c hc, hplain c hc⟩
  · intro h
    obtain ⟨program, s', hr⟩ := hbuild.returns fun c hc ↦ (h c hc).1
    exact ⟨program, s', hr, (hbuild.post program s' hr).shapes_eq fun c hc ↦ (h c hc).2⟩

/-- `main() { return 1 | 2; }`. -/
def bitOrMain : ProgramContext where
  first :=
    { name := ⟨"main", isIdentifier_main⟩
      formals := []
      poly := false
      declarations := []
      statements := []
      returned := .nonShortCircuiting ⟨.lor, by decide⟩ (.numExpr (.ofNat 1))
        (.numExpr (.ofNat 2)) }
  more := []

/-- The AST of `bitOrMain` is that of `main() { return 2; }`. -/
theorem not_build_image_bitOrMain :
    (∃ program s', Returns (ASTBuilder.build bitOrMain) .initial program s' ∧
      program.shapes = [.node (.function false) [.node (.declNode "main") [],
        .node .return' [.node (.number 2) []]]]) ∧
    ¬ ∃ program s', Returns (ASTBuilder.build bitOrMain) .initial program s' ∧
      program.shapes = bitOrMain.shapes := by
  refine ⟨⟨_, _, ⟨rfl, rfl⟩, rfl⟩, ?_⟩
  rintro ⟨program, s', hr, heq⟩
  have hbuild := ASTBuilder.builds_build bitOrMain .initial
  have hplain := (hbuild.post program s' hr).shapes_eq_iff.1 heq
  exact hplain bitOrMain.first.returned (List.mem_cons_self)

end Sipc
