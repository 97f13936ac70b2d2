import Sipc.Frontend.StandardParentheses

/-!
# Levels of syntax trees

When only binary operations, `not` and the operands of a unary minus are put in parentheses, every
other operand has to have the level that its place asks for (`Shape.Respects`).
-/

set_option autoImplicit false
set_option relaxedAutoImplicit false

namespace Sipc

/-- The level of a binary operator. -/
def opLevel (op : String) : ℕ :=
  if op ∈ ["*", "/", "%"] then 17
  else if op ∈ ["+", "-"] then 16
  else if op ∈ [">", "<=", ">=", "<"] then 15
  else if op ∈ ["==", "!="] then 14
  else if op ∈ ["|", "&"] then 3
  else 2

/-- The least level of the postfix and ternary operators at the left edge. -/
def Shape.loopLevel : Shape → ℕ
  | .node .funApp (function :: _) => min 26 function.loopLevel
  | .node (.access _) (record :: _) => min 25 record.loopLevel
  | .node .indexing (arr :: _) => min 23 arr.loopLevel
  | .node .ternary (condition :: _) => min 13 condition.loopLevel
  | _ => 27

/-- The least level of the prefix and ternary operators at the right edge. -/
def Shape.openLevel : Shape → ℕ
  | .node .deRef [ptr] => min 24 ptr.openLevel
  | .node .neg _ => 21
  | .node .ref [var] => min 20 var.openLevel
  | .node .arrayLen [ptr] => min 19 ptr.openLevel
  | .node .alloc [initializer] => min 9 initializer.openLevel
  | .node .ternary [_, _, elseExpr] => min 14 elseExpr.openLevel
  | _ => 27

/-- The operands of a node have the levels that their places ask for. -/
def NodeLabel.Fits : NodeLabel → List Shape → Prop
  | .funApp, f :: _ => 26 < f.openLevel
  | .access _, e :: _ => 25 < e.openLevel
  | .indexing, arr :: _ => 23 < arr.openLevel
  | .deRef, [ptr] => 24 ≤ ptr.loopLevel
  | .ref, [var] => 20 ≤ var.loopLevel
  | .arrayLen, [ptr] => 19 ≤ ptr.loopLevel
  | .alloc, [initializer] => 9 ≤ initializer.loopLevel
  | .not, [arg] => 18 ≤ arg.loopLevel
  | .ternary, [condition, _, elseExpr] => 13 < condition.openLevel ∧ 13 < elseExpr.loopLevel
  | .binary op, [left, right] => opLevel op < left.openLevel ∧ opLevel op < right.loopLevel
  | _, _ => True

mutual

/-- All operands have the levels that their places ask for. -/
def Shape.Respects : Shape → Prop
  | .node label children => label.Fits children ∧ Shape.RespectsList children

def Shape.RespectsList : List Shape → Prop
  | [] => True
  | c :: cs => c.Respects ∧ Shape.RespectsList cs

end

/-- The two operands of an `[E1 of E2]` are exchanged. -/
def NodeLabel.exchange : NodeLabel → List Shape → List Shape
  | .arrayOf, [e1, e2] => [e2, e1]
  | _, children => children

mutual

/-- The operands of every `[E1 of E2]` are exchanged. -/
def Shape.exchanged : Shape → Shape
  | .node label children => .node label (label.exchange (Shape.exchangedList children))

def Shape.exchangedList : List Shape → List Shape
  | [] => []
  | c :: cs => c.exchanged :: Shape.exchangedList cs

end

/-! ### Standard trees have the levels of their shapes -/

theorem opLevel_of_context {op : Token} {k : ℕ} {mk : ExprContext → ExprContext → ExprContext}
    (h : binaryContext op = some (k, mk)) : opLevel op.text = k := by
  cases op
  all_goals first
    | (cases h; done)
    | (cases h; rfl)

/-- The levels of a tree are those of its shape. -/
structure SameLevels (e : ExprContext) : Prop where
  loopLevel : e.loopLevel = e.shape.loopLevel
  openLevel : e.openLevel = e.shape.openLevel
  respects : e.Respects ↔ e.shape.Respects

theorem sameLevels_binary {op : Token} {k : ℕ} {mk : ExprContext → ExprContext → ExprContext}
    {l r : ExprContext} (hop : IsBinary op k mk)
    (hshape : (mk l r).shape = .node (.binary op.text) [l.shape, r.shape]) (hl : SameLevels l)
    (hr : SameLevels r) : SameLevels (.parenExpr (mk l r)) where
  loopLevel := by
    rw [ExprContext.shape, hshape]
    rfl
  openLevel := by
    rw [ExprContext.shape, hshape]
    rfl
  respects := by
    rw [ExprContext.Respects, hop.respects, ExprContext.shape, hshape, Shape.Respects, NodeLabel.Fits,
      opLevel_of_context hop.context, RespectsBinary, hl.openLevel, hr.loopLevel, hl.respects,
      hr.respects]
    simp only [Shape.RespectsList, and_true]

mutual

theorem ExprContext.Standard.sameLevels : ∀ {e : ExprContext}, e.Standard → SameLevels e
  | .funAppExpr f es, ⟨hf, hes⟩ => by
    have h := hf.sameLevels
    refine ⟨?_, rfl, ?_⟩
    · rw [ExprContext.loopLevel, h.loopLevel]
      rfl
    · rw [ExprContext.Respects, h.openLevel, h.respects, standardList_respects hes]
      rfl
  | .accessExpr e _, he => by
    have hs : e.Standard := he
    have h := hs.sameLevels
    refine ⟨?_, rfl, ?_⟩
    · rw [ExprContext.loopLevel, h.loopLevel]
      rfl
    · rw [ExprContext.Respects, h.openLevel, h.respects]
      simp only [ExprContext.shape, Shape.Respects, Shape.RespectsList, NodeLabel.Fits, and_true]
  | .deRefExpr e, he | .refExpr e, he | .arrayLenExpr e, he | .allocExpr e, he => by
    have hs : e.Standard := he
    have h := hs.sameLevels
    refine ⟨rfl, ?_, ?_⟩
    · rw [ExprContext.openLevel, h.openLevel]
      rfl
    · rw [ExprContext.Respects, h.loopLevel, h.respects]
      simp only [ExprContext.shape, Shape.Respects, Shape.RespectsList, NodeLabel.Fits, and_true]
  | .arrayIndexingExpr l r, ⟨hl, hr⟩ => by
    have h := hl.sameLevels
    have h' := hr.sameLevels
    refine ⟨?_, rfl, ?_⟩
    · rw [ExprContext.loopLevel, h.loopLevel]
      rfl
    · rw [ExprContext.Respects, h.openLevel, h.respects, h'.respects]
      simp only [ExprContext.shape, Shape.Respects, Shape.RespectsList, NodeLabel.Fits, and_true]
  | .arrayOfExpr l r, ⟨hl, hr⟩ => by
    refine ⟨rfl, rfl, ?_⟩
    rw [ExprContext.Respects, hl.sameLevels.respects, hr.sameLevels.respects]
    simp only [ExprContext.shape, Shape.Respects, Shape.RespectsList, NodeLabel.Fits, and_true, true_and]
  | .ternaryExpr c e f, ⟨hc, he, hf⟩ => by
    have h := hc.sameLevels
    have h'' := hf.sameLevels
    refine ⟨?_, ?_, ?_⟩
    · rw [ExprContext.loopLevel, h.loopLevel]
      rfl
    · rw [ExprContext.openLevel, h''.openLevel]
      rfl
    · rw [ExprContext.Respects, RespectsBinary, h.openLevel, h''.loopLevel, h.respects,
        he.sameLevels.respects, h''.respects]
      simp only [ExprContext.shape, Shape.Respects, Shape.RespectsList, NodeLabel.Fits, and_true]
  | .recordRule fs, hfs => by
    refine ⟨rfl, rfl, ?_⟩
    rw [ExprContext.Respects, standardFields_respects hfs]
    simp only [ExprContext.shape, Shape.Respects, NodeLabel.Fits, true_and]
  | .arrayLiteral es, hes => by
    refine ⟨rfl, rfl, ?_⟩
    rw [ExprContext.Respects, standardList_respects hes]
    simp only [ExprContext.shape, Shape.Respects, NodeLabel.Fits, true_and]
  | .negNumber _, _ | .varExpr _, _ | .numExpr _, _ | .inputExpr, _ | .nullExpr, _
  | .boolExpr _, _ => ⟨rfl, rfl, by simp [ExprContext.Respects, ExprContext.shape, Shape.Respects,
      Shape.RespectsList, NodeLabel.Fits]⟩
  | .negExpr (.parenExpr e), he => by
    have hs : e.Standard := he
    refine ⟨rfl, rfl, ?_⟩
    rw [ExprContext.Respects, ExprContext.Respects, hs.sameLevels.respects]
    simp [ExprContext.loopLevel, ExprContext.leadsWithNumber, ExprContext.shape, Shape.Respects,
      Shape.RespectsList, NodeLabel.Fits]
  | .parenExpr (.notExpr e), he => by
    have hs : e.Standard := he
    have h := hs.sameLevels
    refine ⟨rfl, rfl, ?_⟩
    rw [ExprContext.Respects, ExprContext.Respects, h.loopLevel, h.respects]
    simp only [ExprContext.shape, Shape.Respects, Shape.RespectsList, NodeLabel.Fits, and_true]
  | .parenExpr (.multiplicativeExpr op _ _), ⟨hl, hr⟩ =>
    sameLevels_binary (isBinary_of_context (binaryContext_multiplicative op)) rfl hl.sameLevels
      hr.sameLevels
  | .parenExpr (.additiveExpr op _ _), ⟨hl, hr⟩ =>
    sameLevels_binary (isBinary_of_context (binaryContext_additive op)) rfl hl.sameLevels
      hr.sameLevels
  | .parenExpr (.relationalExpr op _ _), ⟨hl, hr⟩ =>
    sameLevels_binary (isBinary_of_context (binaryContext_relational op)) rfl hl.sameLevels
      hr.sameLevels
  | .parenExpr (.equalityExpr op _ _), ⟨hl, hr⟩ =>
    sameLevels_binary (isBinary_of_context (binaryContext_equality op)) rfl hl.sameLevels
      hr.sameLevels
  | .parenExpr (.nonShortCircuiting op _ _), ⟨hl, hr⟩ =>
    sameLevels_binary (isBinary_of_context (binaryContext_nonShortCircuiting op)) rfl hl.sameLevels
      hr.sameLevels
  | .parenExpr (.boolOps op _ _), ⟨hl, hr⟩ =>
    sameLevels_binary (isBinary_of_context (binaryContext_boolOps op)) rfl hl.sameLevels
      hr.sameLevels

theorem standardList_respects : ∀ {es : List ExprContext}, ExprContext.StandardList es →
    (ExprContext.RespectsList es ↔ Shape.RespectsList (ExprContext.shapeList es))
  | [], _ => Iff.rfl
  | _ :: _, ⟨he, hes⟩ => and_congr he.sameLevels.respects (standardList_respects hes)

theorem standardFields_respects : ∀ {fs : List FieldExprContext}, ExprContext.StandardFields fs →
    (ExprContext.RespectsFields fs ↔ Shape.RespectsList (ExprContext.shapeFields fs))
  | [], _ => Iff.rfl
  | .mk _ e :: fs, ⟨he, hfs⟩ => by
    rw [ExprContext.RespectsFields, ExprContext.shapeFields, Shape.RespectsList, Shape.Respects,
      he.sameLevels.respects, standardFields_respects hfs]
    simp only [Shape.RespectsList, NodeLabel.Fits, and_true, true_and]

end

/-! ### Exchanging operands -/

/-- Two shapes have the same levels and count the same. -/
structure Alike (s s' : Shape) : Prop where
  loopLevel : s.loopLevel = s'.loopLevel
  openLevel : s.openLevel = s'.openLevel
  respects : s.Respects ↔ s'.Respects
  weight : s.weight = s'.weight
  size : s.size = s'.size

theorem Alike.list {cs cs' : List Shape} (h : List.Forall₂ Alike cs cs') :
    (Shape.RespectsList cs ↔ Shape.RespectsList cs') ∧
      Shape.weightList cs = Shape.weightList cs' ∧ Shape.sizeList cs = Shape.sizeList cs' := by
  induction h with
  | nil => exact ⟨Iff.rfl, rfl, rfl⟩
  | cons hc _ ih =>
    refine ⟨and_congr hc.respects ih.1, ?_, ?_⟩
    · rw [Shape.weightList, Shape.weightList, hc.weight, ih.2.1]
    · rw [Shape.sizeList, Shape.sizeList, hc.size, ih.2.2]

/-- Two shapes have the same levels at their edges. -/
abbrev SameEdges (s s' : Shape) : Prop :=
  s.loopLevel = s'.loopLevel ∧ s.openLevel = s'.openLevel

/-- The levels that a node asks for depend on those of its operands. -/
theorem fits_congr {cs cs' : List Shape} (label : NodeLabel) (h : List.Forall₂ SameEdges cs cs') :
    label.Fits cs ↔ label.Fits cs' := by
  cases label
  all_goals rcases h with _ | ⟨⟨h₁, h₁'⟩, _ | ⟨⟨h₂, h₂'⟩, _ | ⟨⟨h₃, h₃'⟩, _ | _⟩⟩⟩
  all_goals simp only [NodeLabel.Fits, *]

theorem loopLevel_congr {cs cs' : List Shape} (label : NodeLabel) (h : List.Forall₂ SameEdges cs cs') :
    (Shape.node label cs).loopLevel = (Shape.node label cs').loopLevel := by
  cases label
  all_goals rcases h with _ | ⟨⟨h₁, h₁'⟩, _⟩
  all_goals simp only [Shape.loopLevel, *]

theorem openLevel_congr {cs cs' : List Shape} (label : NodeLabel) (h : List.Forall₂ SameEdges cs cs') :
    (Shape.node label cs).openLevel = (Shape.node label cs').openLevel := by
  cases label
  all_goals rcases h with _ | ⟨⟨h₁, h₁'⟩, _ | ⟨⟨h₂, h₂'⟩, _ | ⟨⟨h₃, h₃'⟩, _ | _⟩⟩⟩
  all_goals simp only [Shape.openLevel, *]

theorem Alike.node (label : NodeLabel) {cs cs' : List Shape} (h : List.Forall₂ Alike cs cs') :
    Alike (.node label cs) (.node label cs') := by
  have hedges : List.Forall₂ SameEdges cs cs' := h.imp fun _ _ hc ↦ ⟨hc.loopLevel, hc.openLevel⟩
  obtain ⟨hr, hw, hs⟩ := Alike.list h
  refine ⟨loopLevel_congr label hedges, openLevel_congr label hedges,
    and_congr (fits_congr label hedges) hr, ?_, ?_⟩
  · rw [Shape.weight, Shape.weight, hw, hs]
  · rw [Shape.size, Shape.size, hs]

theorem Alike.exchange (label : NodeLabel) (cs : List Shape) :
    Alike (.node label (label.exchange cs)) (.node label cs) := by
  have hrefl : Alike (.node label cs) (.node label cs) := ⟨rfl, rfl, Iff.rfl, rfl, rfl⟩
  unfold NodeLabel.exchange
  split
  next e1 e2 =>
    refine ⟨rfl, rfl, ?_, ?_, ?_⟩
    · simp only [Shape.Respects, Shape.RespectsList, NodeLabel.Fits, true_and, and_comm]
    · simp only [Shape.weight, Shape.weightList, NodeLabel.weight]
      omega
    · simp only [Shape.size, Shape.sizeList]
      omega
  next => exact hrefl

theorem Alike.trans {s t u : Shape} (h : Alike s t) (h' : Alike t u) : Alike s u :=
  ⟨h.loopLevel.trans h'.loopLevel, h.openLevel.trans h'.openLevel, h.respects.trans h'.respects,
    h.weight.trans h'.weight, h.size.trans h'.size⟩

mutual

/-- Exchanging operands changes no level. -/
theorem Shape.exchanged_alike : ∀ s : Shape, Alike s.exchanged s
  | .node label children => by
    rw [Shape.exchanged]
    exact (Alike.exchange label _).trans (Alike.node label (exchangedList_alike children))

theorem exchangedList_alike : ∀ cs : List Shape, List.Forall₂ Alike (Shape.exchangedList cs) cs
  | [] => .nil
  | c :: cs => .cons c.exchanged_alike (exchangedList_alike cs)

end

end Sipc
