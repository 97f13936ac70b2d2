import Sipc.Frontend.ASTBuilderCorrectness
import Sipc.Frontend.StatementParserCorrectness

/-!
# The statements of a tree without its expressions

What is left of a statement when its expressions are forgotten. The builder keeps it, whatever it does
to the expressions (`StatementContext.ensures_outline`), and whether an `else` belongs to the nearest
`if` can be seen from it (`StatementContext.respects_iff`).
-/

set_option autoImplicit false
set_option relaxedAutoImplicit false

namespace Sipc

open Library Library.Run

/-- A statement without its expressions. -/
inductive Outline
  | simple
  | block (stmts : List Outline)
  | loop (body : Outline)
  | ifThen (thenStmt : Outline)
  | ifElse (thenStmt elseStmt : Outline)

/-- The statement ends with an `if` that an `else` behind it would belong to. -/
def Outline.EndsOpen : Outline → Prop
  | .ifThen _ => True
  | .ifElse _ elseStmt => elseStmt.EndsOpen
  | .loop body => body.EndsOpen
  | _ => False

mutual

/-- Every `else` belongs to the nearest `if`. -/
def Outline.NearestElse : Outline → Prop
  | .simple => True
  | .block stmts => Outline.NearestElseList stmts
  | .loop body => body.NearestElse
  | .ifThen thenStmt => thenStmt.NearestElse
  | .ifElse thenStmt elseStmt =>
    thenStmt.NearestElse ∧ ¬ thenStmt.EndsOpen ∧ elseStmt.NearestElse

def Outline.NearestElseList : List Outline → Prop
  | [] => True
  | o :: os => o.NearestElse ∧ Outline.NearestElseList os

end

/-! ### The outline of a tree -/

mutual

def StatementContext.outline : StatementContext → Outline
  | .blockStmt stmts => .block (StatementContext.outlineList stmts)
  | .whileStmt _ body | .forByStmt _ _ _ _ body | .forRangeStmt _ _ _ body
  | .forInStmt _ _ body => .loop body.outline
  | .ifStmt _ thenStmt => .ifThen thenStmt.outline
  | .ifElseStmt _ thenStmt elseStmt => .ifElse thenStmt.outline elseStmt.outline
  | .assignStmt _ _ | .updateStmt _ _ | .outputStmt _ | .errorStmt _ => .simple

def StatementContext.outlineList : List StatementContext → List Outline
  | [] => []
  | s :: ss => s.outline :: StatementContext.outlineList ss

end

mutual

def ASTStmt.outline : ASTStmt → Outline
  | .blockStmt _ stmts => .block (ASTStmt.outlineList stmts)
  | .whileStmt _ _ body | .forStmt _ _ _ body => .loop body.outline
  | .ifStmt _ _ thenStmt none => .ifThen thenStmt.outline
  | .ifStmt _ _ thenStmt (some elseStmt) => .ifElse thenStmt.outline elseStmt.outline
  | .assignStmt _ _ _ | .updateStmt _ _ _ | .outputStmt _ _ | .errorStmt _ _ => .simple

def ASTStmt.outlineList : List ASTStmt → List Outline
  | [] => []
  | s :: ss => s.outline :: ASTStmt.outlineList ss

end

mutual

/-- The expressions that are no part of another one. -/
def StatementContext.roots : StatementContext → List ExprContext
  | .blockStmt stmts => StatementContext.rootsList stmts
  | .assignStmt lhs rhs => [lhs, rhs]
  | .updateStmt arg _ => [arg]
  | .whileStmt condition body => condition :: body.roots
  | .forByStmt item rangeStart rangeEnd increment body =>
    item :: rangeStart :: rangeEnd :: increment :: body.roots
  | .forRangeStmt item rangeStart rangeEnd body => item :: rangeStart :: rangeEnd :: body.roots
  | .forInStmt item iterator body => item :: iterator :: body.roots
  | .ifStmt condition thenStmt => condition :: thenStmt.roots
  | .ifElseStmt condition thenStmt elseStmt => condition :: (thenStmt.roots ++ elseStmt.roots)
  | .outputStmt arg => [arg]
  | .errorStmt arg => [arg]

def StatementContext.rootsList : List StatementContext → List ExprContext
  | [] => []
  | s :: ss => s.roots ++ StatementContext.rootsList ss

end

/-- Whether an `else` behind the statement would belong to it can be seen from the outline. -/
theorem StatementContext.endsOpen_iff : ∀ s : StatementContext, s.EndsOpen ↔ s.outline.EndsOpen
  | .blockStmt _ | .assignStmt _ _ | .updateStmt _ _ | .outputStmt _ | .errorStmt _
  | .ifStmt _ _ => Iff.rfl
  | .whileStmt _ b | .forByStmt _ _ _ _ b | .forRangeStmt _ _ _ b | .forInStmt _ _ b =>
    b.endsOpen_iff
  | .ifElseStmt _ _ e => e.endsOpen_iff

mutual

theorem StatementContext.respects_iff : ∀ s : StatementContext,
    s.Respects ↔ (∀ e ∈ s.roots, e.Respects) ∧ s.outline.NearestElse
  | .blockStmt ss => respectsList_iff ss
  | .assignStmt l r => by
    simp [StatementContext.Respects, StatementContext.roots, StatementContext.outline,
      Outline.NearestElse]
  | .updateStmt e op => by
    simp [StatementContext.Respects, StatementContext.roots, StatementContext.outline,
      Outline.NearestElse]
  | .whileStmt c b => by
    simp only [StatementContext.Respects, b.respects_iff, StatementContext.roots,
      StatementContext.outline, Outline.NearestElse, List.forall_mem_cons, and_assoc]
  | .forByStmt i a z k b => by
    simp only [StatementContext.Respects, b.respects_iff, StatementContext.roots,
      StatementContext.outline, Outline.NearestElse, List.forall_mem_cons, and_assoc]
  | .forRangeStmt i a z b => by
    simp only [StatementContext.Respects, b.respects_iff, StatementContext.roots,
      StatementContext.outline, Outline.NearestElse, List.forall_mem_cons, and_assoc]
  | .forInStmt i a b => by
    simp only [StatementContext.Respects, b.respects_iff, StatementContext.roots,
      StatementContext.outline, Outline.NearestElse, List.forall_mem_cons, and_assoc]
  | .ifStmt c t => by
    simp only [StatementContext.Respects, t.respects_iff, StatementContext.roots,
      StatementContext.outline, Outline.NearestElse, List.forall_mem_cons, and_assoc]
  | .ifElseStmt c t e => by
    simp only [StatementContext.Respects, t.respects_iff, e.respects_iff, t.endsOpen_iff,
      StatementContext.roots, StatementContext.outline, Outline.NearestElse, List.forall_mem_cons,
      List.forall_mem_append]
    tauto
  | .outputStmt e => by
    simp [StatementContext.Respects, StatementContext.roots, StatementContext.outline,
      Outline.NearestElse]
  | .errorStmt e => by
    simp [StatementContext.Respects, StatementContext.roots, StatementContext.outline,
      Outline.NearestElse]

theorem StatementContext.respectsList_iff : ∀ ss : List StatementContext,
    StatementContext.RespectsList ss ↔ (∀ e ∈ StatementContext.rootsList ss, e.Respects) ∧
      Outline.NearestElseList (StatementContext.outlineList ss)
  | [] => by
    simp [StatementContext.RespectsList, StatementContext.rootsList, StatementContext.outlineList,
      Outline.NearestElseList]
  | s :: ss => by
    simp only [StatementContext.RespectsList, s.respects_iff, respectsList_iff ss,
      StatementContext.rootsList, StatementContext.outlineList, Outline.NearestElseList,
      List.forall_mem_append]
    tauto

end

/-! ### What the builder keeps -/

section Ensures

variable {α β : Type} {m : Build α} {f : α → Build β} {Q : β → BuilderState → Prop}

/-- Wherever the method returns, it leaves what `Q` says. -/
def Ensures (m : Build α) (Q : α → BuilderState → Prop) : Prop :=
  ∀ s a s', Returns m s a s' → Q a s'

theorem Ensures.bind {P : α → Prop} (h : Ensures m fun a _ ↦ P a)
    (hf : ∀ a, P a → Ensures (f a) Q) : Ensures (m >>= f) Q := by
  intro s b s' hr
  obtain ⟨a, s₁, hm, hb⟩ := returns_bind.1 hr
  exact hf a (h s a s₁ hm) s₁ b s' hb

theorem ensures_pure {b : β} (h : ∀ s, Q b s) : Ensures (Pure.pure b) Q := by
  intro s b' s' hr
  obtain ⟨rfl, rfl⟩ := returns_pure.1 hr
  exact h s

/-- After a step of which nothing has to be known. -/
theorem ensures_bind (hf : ∀ a, Ensures (f a) Q) : Ensures (m >>= f) Q := by
  intro s b s' hr
  obtain ⟨a, s₁, -, hb⟩ := returns_bind.1 hr
  exact hf a s₁ b s' hb

/-- A result that is left in a static variable is read from it. -/
theorem ensures_read {m : Build Unit} {g : BuilderState → Option α} {P : α → Prop}
    (h : Ensures m fun _ s ↦ ∃ a, g s = some a ∧ P a) (hf : ∀ a, P a → Ensures (f a) Q) :
    Ensures (do m; let a ← readVisited g; f a) Q := by
  intro s b s' hr
  obtain ⟨⟨⟩, s₁, hm, hr⟩ := returns_bind.1 hr
  obtain ⟨a', s₂, hread, hb⟩ := returns_bind.1 hr
  obtain ⟨a, ha, hP⟩ := h s () s₁ hm
  obtain ⟨rfl, rfl⟩ := (builds_readVisited ha).post a' s₂ hread
  exact hf a' hP s₂ b s' hb

theorem ensures_setVisitedStmt {stmt : ASTStmt} {P : ASTStmt → Prop} (h : P stmt) :
    Ensures (setVisitedStmt stmt) fun _ s ↦ ∃ stmt, s.visitedStmt = some stmt ∧ P stmt := by
  intro s _ s' hr
  cases returns_access.1 hr
  exact ⟨stmt, rfl, h⟩

end Ensures

/-- The method leaves a statement with the outline. -/
def KeepsOutline (m : Build Unit) (o : Outline) : Prop :=
  Ensures m fun _ s ↦ ∃ stmt, s.visitedStmt = some stmt ∧ stmt.outline = o

mutual

theorem StatementContext.keepsOutline : ∀ c : StatementContext, KeepsOutline c.visit c.outline
  | .blockStmt ss => Ensures.bind (ensures_outlineList ss) fun _ hss ↦ ensures_bind fun _ ↦
      ensures_setVisitedStmt (congrArg Outline.block hss)
  | .assignStmt _ _ => ensures_bind fun _ ↦ ensures_bind fun _ ↦ ensures_bind fun _ ↦
      ensures_bind fun _ ↦ ensures_bind fun _ ↦ ensures_setVisitedStmt rfl
  | .updateStmt _ _ => ensures_bind fun _ ↦ ensures_bind fun _ ↦ ensures_bind fun _ ↦
      ensures_bind fun _ ↦ ensures_setVisitedStmt rfl
  | .whileStmt _ b => ensures_bind fun _ ↦ ensures_bind fun _ ↦
      ensures_read b.keepsOutline fun _ hb ↦ ensures_bind fun _ ↦
        ensures_setVisitedStmt (congrArg Outline.loop hb)
  | .forByStmt _ _ _ _ b => ensures_bind fun _ ↦ ensures_bind fun _ ↦ ensures_bind fun _ ↦
      ensures_bind fun _ ↦ ensures_bind fun _ ↦ ensures_bind fun _ ↦ ensures_bind fun _ ↦
      ensures_bind fun _ ↦ ensures_read b.keepsOutline fun _ hb ↦ ensures_bind fun _ ↦
        ensures_setVisitedStmt (congrArg Outline.loop hb)
  | .forRangeStmt _ _ _ b => ensures_bind fun _ ↦ ensures_bind fun _ ↦ ensures_bind fun _ ↦
      ensures_bind fun _ ↦ ensures_bind fun _ ↦ ensures_bind fun _ ↦
      ensures_read b.keepsOutline fun _ hb ↦ ensures_bind fun _ ↦
        ensures_setVisitedStmt (congrArg Outline.loop hb)
  | .forInStmt _ _ b => ensures_bind fun _ ↦ ensures_bind fun _ ↦ ensures_bind fun _ ↦
      ensures_bind fun _ ↦ ensures_read b.keepsOutline fun _ hb ↦ ensures_bind fun _ ↦
        ensures_setVisitedStmt (congrArg Outline.loop hb)
  | .ifStmt _ t => ensures_bind fun _ ↦ ensures_bind fun _ ↦
      ensures_read t.keepsOutline fun _ ht ↦ ensures_bind fun _ ↦
        ensures_setVisitedStmt (congrArg Outline.ifThen ht)
  | .ifElseStmt _ t e => ensures_bind fun _ ↦ ensures_bind fun _ ↦
      ensures_read t.keepsOutline fun _ ht ↦ ensures_read e.keepsOutline fun _ he ↦
        ensures_bind fun _ ↦ ensures_setVisitedStmt (congrArg₂ Outline.ifElse ht he)
  | .outputStmt _ | .errorStmt _ => ensures_bind fun _ ↦ ensures_bind fun _ ↦
      ensures_bind fun _ ↦ ensures_setVisitedStmt rfl

theorem StatementContext.ensures_outlineList : ∀ cs : List StatementContext,
    Ensures (StatementContext.visitList cs) fun ss _ ↦
      ASTStmt.outlineList ss = StatementContext.outlineList cs
  | [] => ensures_pure fun _ ↦ rfl
  | c :: cs => ensures_read c.keepsOutline fun _ hc ↦
      Ensures.bind (ensures_outlineList cs) fun _ hcs ↦
        ensures_pure fun _ ↦ congrArg₂ List.cons hc hcs

end

end Sipc
