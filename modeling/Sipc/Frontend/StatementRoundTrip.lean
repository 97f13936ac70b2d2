import Sipc.Frontend.ExprRoundTrip
import Sipc.Frontend.Outline
import Sipc.Frontend.PrettyPrinterText
import Sipc.Semantic.Weeding.CheckAssignable

/-!
# Printing and reading statements

The text of a statement spells the tokens of a tree with the shape of the statement, where its
expressions are such that their texts can be read back and its left sides are assignable
(`ASTStmt.exists_printed`).
-/

set_option autoImplicit false
set_option relaxedAutoImplicit false

namespace Sipc

open PrettyPrinter

/-! ### Expressions that can be read back -/

/-- What is printed for the expression is read as the expression. -/
structure ASTExpr.Rereads (e : ASTExpr) : Prop where
  respects : e.shape.Respects
  exchanged : e.shape.exchanged = e.shape

/-- The tree that is read from the text of an expression. -/
structure IsReread (e : ASTExpr) (u : ExprContext) : Prop where
  respects : u.Respects
  shape_eq : u.shape = e.shape
  spells : Spells e.text u.tokens
  builds : ∀ c ∈ u.exprs, c.LiteralFits ∧ c.HasMethod

theorem ASTExpr.Rereads.exists_tree {e : ASTExpr} (h : e.Rereads) (hlexical : e.shape.Lexical) :
    ∃ u, IsReread e u := by
  obtain ⟨u, hu⟩ := e.exists_printed hlexical
  refine ⟨u, ?_, hu.shape_eq.trans h.exchanged, hu.spells, hu.builds⟩
  rw [hu.standard.sameLevels.respects, hu.shape_eq, e.shape.exchanged_alike.respects]
  exact h.respects

/-! ### Left sides -/

/-- The text of the expression begins with an empty record. -/
def Shape.OpensEmptyRecord : Shape → Prop
  | .node .record [] => True
  | .node (.access _) (c :: _) | .node .indexing (c :: _) | .node .funApp (c :: _)
  | .node .ternary (c :: _) | .node (.binary _) (c :: _) => c.OpensEmptyRecord
  | _ => False

theorem ExprContext.opensEmptyRecord :
    ∀ u : ExprContext, u.leftEdge = .recordRule [] → u.shape.OpensEmptyRecord
  | .funAppExpr e _, h | .accessExpr e _, h | .arrayIndexingExpr e _, h
  | .multiplicativeExpr _ e _, h | .additiveExpr _ e _, h | .relationalExpr _ e _, h
  | .equalityExpr _ e _, h | .ternaryExpr e _ _, h | .nonShortCircuiting _ e _, h
  | .boolOps _ e _, h => by
    have ih := e.opensEmptyRecord h
    simpa only [ExprContext.shape, Shape.OpensEmptyRecord] using ih
  | .recordRule fs, h => by
    cases h
    trivial
  | .deRefExpr _, h | .negNumber _, h | .negExpr _, h | .refExpr _, h | .arrayLenExpr _, h
  | .notExpr _, h | .varExpr _, h | .numExpr _, h | .inputExpr, h | .allocExpr _, h | .nullExpr, h
  | .boolExpr _, h | .arrayLiteral _, h | .arrayOfExpr _ _, h | .parenExpr _, h => by cases h

/-- What is assignable does not begin with a record. -/
theorem not_opensEmptyRecord {e : ASTExpr} (h : isAssignableOrDeRef e = true) :
    ¬ e.shape.OpensEmptyRecord := by
  unfold isAssignableOrDeRef isAssignable at h
  split at h
  · exact id
  · split at h
    · exact id
    · exact id
    · exact id
    · exact id
    · exact id
    · cases h

theorem IsReread.leftEdge_ne {e : ASTExpr} {u : ExprContext} (hu : IsReread e u)
    (h : isAssignableOrDeRef e = true) : u.leftEdge ≠ .recordRule [] := fun heq ↦
  not_opensEmptyRecord h (hu.shape_eq ▸ u.opensEmptyRecord heq)

/-! ### Pieces of text -/

variable {indentChar : Char} {indentSize level : ℕ}

theorem opens_indent (h : isSpace indentChar) (indentSize level : ℕ) :
    Opens (indent indentChar indentSize level) [] := by
  refine opens_spaces ?_
  rw [indent, String.toList_ofList, List.all_eq_true]
  intro c hc
  rw [List.eq_of_mem_replicate hc]
  exact h

theorem Opens.congr {text text' : String} {ts ts' : List Token} (h : Opens text ts)
    (htext : text' = text) (htokens : ts' = ts) : Opens text' ts' := by
  rwa [htext, htokens]

theorem opens_assign : Opens " = " [.assign] :=
  opens_space.append (opens_symbol_space (t := .assign) (by decide))

theorem opens_by : Opens " by " [.kBy] :=
  opens_space.append (opens_keyword_space (t := .kBy) (by decide))

theorem spells_range {text text' : String} {ts ts' : List Token} (h : Spells text ts)
    (h' : Spells text' ts') : Spells (text ++ ".." ++ text') (ts ++ .dotDot :: ts') :=
  ((h.append (opens_symbol (t := .dotDot) (by decide)) rfl).appendSpells h').congr rfl (by simp)

theorem opens_keyword_lparen {t : Token} (h : t ∈ keywordTokens) :
    Opens (t.text ++ " " ++ "(") [t, .lparen] :=
  (opens_keyword_space h).append (opens_symbol (t := .lparen) (by decide))

theorem opens_newline : Opens "\n" [] :=
  opens_spaces rfl

theorem opens_rparen_newline : Opens ") \n" [.rparen] :=
  ((opens_symbol (t := .rparen) (by decide)).append opens_space).append opens_newline

/-- Texts one below the other. -/
theorem opens_joinItems {texts : List String} {tss : List (List Token)}
    (h : List.Forall₂ Opens texts tss) (n : ℕ) : Opens (joinItems "\n" n texts) tss.flatten := by
  induction h generalizing n with
  | nil =>
    cases n <;> exact opens_empty
  | cons h _ ih =>
    cases n with
    | zero => exact h.append (ih 0)
    | succ n =>
      exact ((h.append opens_newline).append (ih n)).congr rfl (by simp)

/-! ### Statements -/

mutual

/-- The expressions that are no part of another one. -/
def ASTStmt.roots : ASTStmt → List ASTExpr
  | .assignStmt _ lhs rhs => [lhs, rhs]
  | .updateStmt _ arg _ => [arg]
  | .blockStmt _ stmts => ASTStmt.rootsList stmts
  | .whileStmt _ condition body => condition :: body.roots
  | .forStmt _ item (.iterator iterator) body => item :: iterator :: body.roots
  | .forStmt _ item (.range rangeStart rangeEnd none) body =>
    item :: rangeStart :: rangeEnd :: body.roots
  | .forStmt _ item (.range rangeStart rangeEnd (some increment)) body =>
    item :: rangeStart :: rangeEnd :: increment :: body.roots
  | .ifStmt _ condition thenStmt none => condition :: thenStmt.roots
  | .ifStmt _ condition thenStmt (some elseStmt) =>
    condition :: (thenStmt.roots ++ elseStmt.roots)
  | .outputStmt _ arg => [arg]
  | .errorStmt _ arg => [arg]

def ASTStmt.rootsList : List ASTStmt → List ASTExpr
  | [] => []
  | s :: ss => s.roots ++ ASTStmt.rootsList ss

end

/-- The tree that is read from the text of a statement. -/
structure IsRereadStmt (text : String) (s : ASTStmt) (u : StatementContext) : Prop where
  respects : ∀ e ∈ u.roots, e.Respects
  plain : u.Plain
  outline_eq : u.outline = s.outline
  shape_eq : u.shape = s.shape
  opens : Opens text u.tokens
  builds : ∀ c ∈ u.exprs, c.LiteralFits ∧ c.HasMethod

/-- The trees that are read from the texts of statements. -/
structure AreRereadStmts (texts : List String) (ss : List ASTStmt) (us : List StatementContext) :
    Prop where
  respects : ∀ e ∈ StatementContext.rootsList us, e.Respects
  plain : StatementContext.PlainList us
  outline_eq : StatementContext.outlineList us = ASTStmt.outlineList ss
  shape_eq : StatementContext.shapeList us = ASTStmt.shapeList ss
  opens : List.Forall₂ Opens texts (us.map StatementContext.tokens)
  builds : ∀ c ∈ StatementContext.exprsList us, c.LiteralFits ∧ c.HasMethod

/-- What the printed text of a statement needs. -/
structure ASTStmt.Rereadable (s : ASTStmt) : Prop where
  rereads : ∀ e ∈ s.roots, e.Rereads
  lexical : s.shape.Lexical
  checked : ∀ n, .endVisit n ∈ s.accept → CheckAssignable.endVisit n = .ok ()

theorem endVisit_mem_visiting (n : ASTNode) (inner : List VisitEvent) :
    .endVisit n ∈ visiting n inner :=
  List.mem_append_right _ List.mem_cons_self

theorem mem_visiting {n : ASTNode} {inner : List VisitEvent} {ev : VisitEvent} (h : ev ∈ inner) :
    ev ∈ visiting n inner :=
  List.mem_cons_of_mem _ (List.mem_append_left _ h)

theorem isAssignable_of_ok {e : ASTExpr} {err : SemanticError}
    (h : (if isAssignableOrDeRef e then Except.ok () else .error err) = .ok ()) :
    isAssignableOrDeRef e = true := by
  by_contra hne
  rw [if_neg hne] at h
  cases h

theorem tokensList_eq (us : List StatementContext) :
    StatementContext.tokensList us = (us.map StatementContext.tokens).flatten := by
  induction us with
  | nil => rfl
  | cons u us ih => rw [StatementContext.tokensList, ih, List.map_cons, List.flatten_cons]

section Statements

variable (hindent : isSpace indentChar)

include hindent

/-- What comes before the body of a loop or a branch. -/
theorem opens_head (level : ℕ) {t : Token} (h : t ∈ keywordTokens) {text : String} {ts : List Token}
    (htext : Spells text ts) :
    Opens (indent indentChar indentSize level ++ (t.text ++ " " ++ "(") ++ text ++ ") \n")
      (t :: .lparen :: (ts ++ [.rparen])) :=
  ((((opens_indent hindent indentSize level).append (opens_keyword_lparen h)).appendSpells htext).append
    opens_rparen_newline rfl).congr rfl (by simp)

theorem opens_for (level : ℕ) {text : String} {ts : List Token} (htext : Spells text ts) :
    Opens (indent indentChar indentSize level ++ "for (" ++ text ++ " : ")
      (.kFor :: .lparen :: (ts ++ [.colon])) :=
  ((((opens_indent hindent indentSize level).append
    (opens_keyword_lparen (t := .kFor) (by decide))).appendSpells htext).append opens_colon rfl).congr
    rfl (by simp)

end Statements

mutual

/-- The text of a statement spells a tree that makes the choices of the grammar. -/
theorem ASTStmt.exists_reread (hindent : isSpace indentChar) (indentSize : ℕ) : ∀ (s : ASTStmt) (level : ℕ), s.Rereadable →
    ∃ u, IsRereadStmt (s.text indentChar indentSize level) s u
  | .assignStmt n lhs rhs, level, h => by
    obtain ⟨hl, hr, -⟩ := h.lexical.2
    obtain ⟨l, hl⟩ := (h.rereads lhs (by simp [ASTStmt.roots])).exists_tree hl
    obtain ⟨r, hr⟩ := (h.rereads rhs (by simp [ASTStmt.roots])).exists_tree hr
    refine ⟨.assignStmt l r, ?_, ?_, rfl, ?_, ?_, List.forall_mem_append.2 ⟨hl.builds, hr.builds⟩⟩
    · simpa [StatementContext.roots] using ⟨hl.respects, hr.respects⟩
    · exact hl.leftEdge_ne (isAssignable_of_ok (h.checked _ (endVisit_mem_visiting _ _)))
    · rw [StatementContext.shape, hl.shape_eq, hr.shape_eq]
      rfl
    · have hopens := (((opens_indent hindent indentSize level).appendSpells hl.spells).append opens_assign
        rfl).appendSpells hr.spells
      exact (hopens.append (opens_symbol (t := .semi) (by decide)) rfl).congr rfl
        (by simp [StatementContext.tokens])
  | .updateStmt n arg increment, level, h => by
    obtain ⟨e, he⟩ := (h.rereads arg (by simp [ASTStmt.roots])).exists_tree h.lexical.2.1
    have hplain := he.leftEdge_ne (isAssignable_of_ok (h.checked _ (endVisit_mem_visiting _ _)))
    have hrespects : ∀ c ∈ [e], c.Respects := by simpa using he.respects
    cases increment
    · refine ⟨.updateStmt e ⟨.mm, by decide⟩, hrespects, hplain, rfl, ?_, ?_, he.builds⟩
      · rw [StatementContext.shape, he.shape_eq]
        rfl
      · exact ((((opens_indent hindent indentSize level).appendSpells he.spells).append
          (opens_symbol (t := .mm) (by decide)) rfl).append
          (opens_symbol (t := .semi) (by decide))).congr rfl (by simp [StatementContext.tokens])
    · refine ⟨.updateStmt e ⟨.pp, by decide⟩, hrespects, hplain, rfl, ?_, ?_, he.builds⟩
      · rw [StatementContext.shape, he.shape_eq]
        rfl
      · exact ((((opens_indent hindent indentSize level).appendSpells he.spells).append
          (opens_symbol (t := .pp) (by decide)) rfl).append
          (opens_symbol (t := .semi) (by decide))).congr rfl (by simp [StatementContext.tokens])
  | .blockStmt n stmts, level, h => by
    obtain ⟨us, hus⟩ := exists_rereadList hindent indentSize stmts (level + 1) h.rereads h.lexical.2
      fun m hm ↦ h.checked m (mem_visiting hm)
    refine ⟨.blockStmt us, hus.respects, hus.plain, ?_, ?_, ?_, hus.builds⟩
    · rw [StatementContext.outline, hus.outline_eq, ASTStmt.outline]
    · rw [StatementContext.shape, hus.shape_eq, ASTStmt.shape]
    · have hopens := (((opens_indent hindent indentSize level).append
        ((opens_symbol (t := .lbrace) (by decide)).append opens_newline)).append
        (opens_joinItems hus.opens stmts.length)).append (opens_indent hindent indentSize level)
      exact (hopens.append (opens_symbol (t := .rbrace) (by decide))).congr rfl
        (by simp [StatementContext.tokens, tokensList_eq])
  | .whileStmt n c b, level, h => by
    obtain ⟨hrc, hrb⟩ := List.forall_mem_cons.1 h.rereads
    obtain ⟨hlc, hlb, -⟩ := h.lexical.2
    obtain ⟨c', hc⟩ := hrc.exists_tree hlc
    obtain ⟨b', hb⟩ := b.exists_reread hindent indentSize (level + 1) ⟨hrb, hlb, fun m hm ↦
      h.checked m (mem_visiting (List.mem_append_right _ hm))⟩
    refine ⟨.whileStmt c' b', List.forall_mem_cons.2 ⟨hc.respects, hb.respects⟩, hb.plain,
      congrArg Outline.loop hb.outline_eq, ?_, ?_, List.forall_mem_append.2 ⟨hc.builds, hb.builds⟩⟩
    · rw [StatementContext.shape, hc.shape_eq, hb.shape_eq, ASTStmt.shape]
    · exact ((opens_head hindent level (t := .kWhile) (by decide) hc.spells).append hb.opens).congr rfl
        (by simp [StatementContext.tokens])
  | .forStmt n i (.iterator a) b, level, h => by
    obtain ⟨hri, h'⟩ := List.forall_mem_cons.1 h.rereads
    obtain ⟨hra, hrb⟩ := List.forall_mem_cons.1 h'
    obtain ⟨hli, hla, hlb, -⟩ := h.lexical.2
    obtain ⟨i', hi⟩ := hri.exists_tree hli
    obtain ⟨a', ha⟩ := hra.exists_tree hla
    obtain ⟨b', hb⟩ := b.exists_reread hindent indentSize (level + 1) ⟨hrb, hlb, fun m hm ↦
      h.checked m (mem_visiting (List.mem_append_right _ hm))⟩
    refine ⟨.forInStmt i' a' b', ?_, hb.plain, congrArg Outline.loop hb.outline_eq, ?_, ?_, ?_⟩
    · exact List.forall_mem_cons.2 ⟨hi.respects, List.forall_mem_cons.2 ⟨ha.respects, hb.respects⟩⟩
    · rw [StatementContext.shape, hi.shape_eq, ha.shape_eq, hb.shape_eq, ASTStmt.shape]
    · exact ((((opens_for hindent level hi.spells).appendSpells ha.spells).append
        opens_rparen_newline rfl).append hb.opens).congr rfl (by simp [StatementContext.tokens])
    · exact List.forall_mem_append.2 ⟨hi.builds, List.forall_mem_append.2 ⟨ha.builds, hb.builds⟩⟩
  | .forStmt n i (.range a z none) b, level, h => by
    obtain ⟨hri, h'⟩ := List.forall_mem_cons.1 h.rereads
    obtain ⟨hra, h'⟩ := List.forall_mem_cons.1 h'
    obtain ⟨hrz, hrb⟩ := List.forall_mem_cons.1 h'
    obtain ⟨hli, hla, hlz, hlb, -⟩ := h.lexical.2
    obtain ⟨i', hi⟩ := hri.exists_tree hli
    obtain ⟨a', ha⟩ := hra.exists_tree hla
    obtain ⟨z', hz⟩ := hrz.exists_tree hlz
    obtain ⟨b', hb⟩ := b.exists_reread hindent indentSize (level + 1) ⟨hrb, hlb, fun m hm ↦
      h.checked m (mem_visiting (List.mem_append_right _ hm))⟩
    refine ⟨.forRangeStmt i' a' z' b', ?_, hb.plain, congrArg Outline.loop hb.outline_eq, ?_, ?_, ?_⟩
    · exact List.forall_mem_cons.2 ⟨hi.respects, List.forall_mem_cons.2 ⟨ha.respects,
        List.forall_mem_cons.2 ⟨hz.respects, hb.respects⟩⟩⟩
    · rw [StatementContext.shape, hi.shape_eq, ha.shape_eq, hz.shape_eq, hb.shape_eq, ASTStmt.shape]
    · exact ((((opens_for hindent level hi.spells).appendSpells (spells_range ha.spells hz.spells)).append
        opens_rparen_newline rfl).append hb.opens).congr rfl (by simp [StatementContext.tokens])
    · exact List.forall_mem_append.2 ⟨hi.builds, List.forall_mem_append.2 ⟨ha.builds,
        List.forall_mem_append.2 ⟨hz.builds, hb.builds⟩⟩⟩
  | .forStmt n i (.range a z (some k)) b, level, h => by
    obtain ⟨hri, h'⟩ := List.forall_mem_cons.1 h.rereads
    obtain ⟨hra, h'⟩ := List.forall_mem_cons.1 h'
    obtain ⟨hrz, h'⟩ := List.forall_mem_cons.1 h'
    obtain ⟨hrk, hrb⟩ := List.forall_mem_cons.1 h'
    obtain ⟨hli, hla, hlz, hlk, hlb, -⟩ := h.lexical.2
    obtain ⟨i', hi⟩ := hri.exists_tree hli
    obtain ⟨a', ha⟩ := hra.exists_tree hla
    obtain ⟨z', hz⟩ := hrz.exists_tree hlz
    obtain ⟨k', hk⟩ := hrk.exists_tree hlk
    obtain ⟨b', hb⟩ := b.exists_reread hindent indentSize (level + 1) ⟨hrb, hlb, fun m hm ↦
      h.checked m (mem_visiting (List.mem_append_right _ hm))⟩
    refine ⟨.forByStmt i' a' z' k' b', ?_, hb.plain, congrArg Outline.loop hb.outline_eq, ?_, ?_, ?_⟩
    · exact List.forall_mem_cons.2 ⟨hi.respects, List.forall_mem_cons.2 ⟨ha.respects,
        List.forall_mem_cons.2 ⟨hz.respects, List.forall_mem_cons.2 ⟨hk.respects, hb.respects⟩⟩⟩⟩
    · rw [StatementContext.shape, hi.shape_eq, ha.shape_eq, hz.shape_eq, hk.shape_eq, hb.shape_eq,
        ASTStmt.shape]
    · have hby := opens_by.appendSpells hk.spells
      exact (((((opens_for hindent level hi.spells).appendSpells
        (spells_range ha.spells hz.spells)).appendSpells hby (BreaksWord.append rfl)).append
        opens_rparen_newline rfl).append hb.opens).congr rfl (by simp [StatementContext.tokens])
    · exact List.forall_mem_append.2 ⟨hi.builds, List.forall_mem_append.2 ⟨ha.builds,
        List.forall_mem_append.2 ⟨hz.builds, List.forall_mem_append.2 ⟨hk.builds, hb.builds⟩⟩⟩⟩
  | .ifStmt n c t none, level, h => by
    obtain ⟨hrc, hrt⟩ := List.forall_mem_cons.1 h.rereads
    obtain ⟨hlc, hlt, -⟩ := h.lexical.2
    obtain ⟨c', hc⟩ := hrc.exists_tree hlc
    obtain ⟨t', ht⟩ := t.exists_reread hindent indentSize (level + 1) ⟨hrt, hlt, fun m hm ↦
      h.checked m (mem_visiting (List.mem_append_right _ hm))⟩
    refine ⟨.ifStmt c' t', List.forall_mem_cons.2 ⟨hc.respects, ht.respects⟩, ht.plain,
      congrArg Outline.ifThen ht.outline_eq, ?_, ?_, List.forall_mem_append.2 ⟨hc.builds, ht.builds⟩⟩
    · rw [StatementContext.shape, hc.shape_eq, ht.shape_eq, ASTStmt.shape]
    · exact ((opens_head hindent level (t := .kIf) (by decide) hc.spells).append ht.opens).congr rfl
        (by simp [StatementContext.tokens])
  | .ifStmt n c t (some e), level, h => by
    obtain ⟨hrc, hrt⟩ := List.forall_mem_cons.1 h.rereads
    obtain ⟨hrt, hre⟩ := List.forall_mem_append.1 hrt
    obtain ⟨hlc, hlt, hle, -⟩ := h.lexical.2
    obtain ⟨c', hc⟩ := hrc.exists_tree hlc
    obtain ⟨t', ht⟩ := t.exists_reread hindent indentSize (level + 1) ⟨hrt, hlt, fun m hm ↦ h.checked m
      (mem_visiting (List.mem_append_left _ (List.mem_append_right _ hm)))⟩
    obtain ⟨e', he⟩ := e.exists_reread hindent indentSize (level + 1) ⟨hre, hle, fun m hm ↦
      h.checked m (mem_visiting (List.mem_append_right _ hm))⟩
    refine ⟨.ifElseStmt c' t' e', List.forall_mem_cons.2 ⟨hc.respects,
      List.forall_mem_append.2 ⟨ht.respects, he.respects⟩⟩, ⟨ht.plain, he.plain⟩,
      congrArg₂ Outline.ifElse ht.outline_eq he.outline_eq, ?_, ?_,
      List.forall_mem_append.2 ⟨hc.builds, List.forall_mem_append.2 ⟨ht.builds, he.builds⟩⟩⟩
    · rw [StatementContext.shape, hc.shape_eq, ht.shape_eq, he.shape_eq, ASTStmt.shape]
    · have helse := ((opens_newline.append (opens_indent hindent indentSize level)).append
        ((spells_keyword (t := .kElse) (by decide)).append opens_newline rfl)).append he.opens
      exact (((opens_head hindent level (t := .kIf) (by decide) hc.spells).append ht.opens).append
        helse).congr rfl (by simp [StatementContext.tokens])
  | .outputStmt n arg, level, h => by
    obtain ⟨e, he⟩ := (h.rereads arg (by simp [ASTStmt.roots])).exists_tree h.lexical.2.1
    refine ⟨.outputStmt e, by simpa [StatementContext.roots] using he.respects, trivial, rfl, ?_, ?_,
      he.builds⟩
    · rw [StatementContext.shape, he.shape_eq, ASTStmt.shape]
    · exact ((((opens_indent hindent indentSize level).append (opens_keyword_space (t := .kOutput)
        (by decide))).appendSpells he.spells).append (opens_symbol (t := .semi) (by decide)) rfl).congr
        rfl (by simp [StatementContext.tokens])
  | .errorStmt n arg, level, h => by
    obtain ⟨e, he⟩ := (h.rereads arg (by simp [ASTStmt.roots])).exists_tree h.lexical.2.1
    refine ⟨.errorStmt e, by simpa [StatementContext.roots] using he.respects, trivial, rfl, ?_, ?_,
      he.builds⟩
    · rw [StatementContext.shape, he.shape_eq, ASTStmt.shape]
    · exact ((((opens_indent hindent indentSize level).append (opens_keyword_space (t := .kError)
        (by decide))).appendSpells he.spells).append (opens_symbol (t := .semi) (by decide)) rfl).congr
        rfl (by simp [StatementContext.tokens])

theorem exists_rereadList (hindent : isSpace indentChar) (indentSize : ℕ) : ∀ (ss : List ASTStmt) (level : ℕ),
    (∀ e ∈ ASTStmt.rootsList ss, e.Rereads) → Shape.LexicalList (ASTStmt.shapeList ss) →
    (∀ n, .endVisit n ∈ ASTStmt.acceptList ss → CheckAssignable.endVisit n = .ok ()) →
    ∃ us, AreRereadStmts (ASTStmt.textList indentChar indentSize level ss) ss us
  | [], level, _, _, _ =>
    ⟨[], by simp [StatementContext.rootsList], trivial, rfl, rfl, .nil,
      by simp [StatementContext.exprsList]⟩
  | s :: ss, level, hrereads, hlexical, hchecked => by
    obtain ⟨hrs, hrss⟩ := List.forall_mem_append.1 hrereads
    obtain ⟨u, hu⟩ := s.exists_reread hindent indentSize level ⟨hrs, hlexical.1, fun m hm ↦
      hchecked m (List.mem_append_left _ hm)⟩
    obtain ⟨us, hus⟩ := exists_rereadList hindent indentSize ss level hrss hlexical.2 fun m hm ↦
      hchecked m (List.mem_append_right _ hm)
    refine ⟨u :: us, List.forall_mem_append.2 ⟨hu.respects, hus.respects⟩, ⟨hu.plain, hus.plain⟩,
      congrArg₂ List.cons hu.outline_eq hus.outline_eq, congrArg₂ List.cons hu.shape_eq hus.shape_eq,
      .cons hu.opens hus.opens, List.forall_mem_append.2 ⟨hu.builds, hus.builds⟩⟩

end

end Sipc
