import Sipc.Frontend.ASTBuilderCorrectness
import Sipc.Frontend.Levels
import Sipc.Frontend.Lexer
import Sipc.Frontend.PrettyPrinter

/-!
# Printing and reading expressions

The text of an expression spells the tokens of a tree with standard parentheses, in which the operands
of every `[E1 of E2]` are exchanged (`ASTExpr.exists_printed`). So what is read from it is the printed
expression exactly where the operands without parentheses have the levels that their places ask for and
exchanging the operands makes no difference (`ASTExpr.reread_iff`).
-/

set_option autoImplicit false
set_option relaxedAutoImplicit false

namespace Sipc

open Library Library.Run

/-- The tree that the text is to be read as. -/
structure IsPrinted (text : String) (shape : Shape) (u : ExprContext) : Prop where
  standard : u.Standard
  shape_eq : u.shape = shape.exchanged
  spells : Spells text u.tokens
  builds : ∀ c ∈ u.exprs, c.LiteralFits ∧ c.HasMethod

/-- The token of the operator of a binary node. -/
def BinaryOp.token : BinaryOp → Token
  | .add => .add
  | .sub => .sub
  | .mul => .mul
  | .div => .div
  | .mod => .mod
  | .gt => .gt
  | .ge => .gte
  | .lt => .lt
  | .le => .lte
  | .eq => .eq
  | .ne => .ne
  | .and => .kAnd
  | .or => .kOr

/-! ### Pieces of text -/

theorem opens_keyword_space {t : Token} (h : t ∈ keywordTokens) : Opens (t.text ++ " ") [t] :=
  (spells_keyword h).append opens_space rfl

theorem BinaryOp.token_text (op : BinaryOp) : op.token.text = op.text := by
  cases op <;> rfl

theorem opens_op (op : BinaryOp) : Opens (op.text ++ " ") [op.token] := by
  have hop : op.token ∈ symbols ∨ op.token ∈ keywordTokens := by
    cases op <;> decide
  rw [← op.token_text]
  exact hop.elim opens_symbol_space opens_keyword_space

theorem opens_comma : Opens ", " [.comma] :=
  opens_symbol_space (t := .comma) (by decide)

theorem opens_question : Opens " ? " [.question] :=
  opens_space.append (opens_symbol_space (t := .question) (by decide))

theorem opens_colon : Opens " : " [.colon] :=
  opens_space.append (opens_symbol_space (t := .colon) (by decide))

theorem opens_of : Opens " of " [.kOf] :=
  opens_space.append (opens_keyword_space (t := .kOf) (by decide))

theorem opens_neg : Opens "-(" [.sub, .lparen] := fun rest ↦ by
  have h := lex_sub (c := '(') rest (by decide)
  have hparen := opens_symbol (t := .lparen) (by decide) rest
  exact h.trans ((congrArg _ hparen).trans (map_append_map _))

/-- Between brackets, after an expression. -/
theorem Spells.brackets {left text : String} {ts ts' : List Token} {t u : Token}
    (hleft : Spells left ts) (ht : t ∈ closedSymbols) (hbreak : BreaksWord t.text)
    (h : Spells text ts') (hu : u ∈ closedSymbols) (hbreak' : BreaksWord u.text) :
    Opens (left ++ t.text ++ text ++ u.text) (ts ++ t :: ts' ++ [u]) := by
  have hopen := ((hleft.append (opens_symbol ht) hbreak).appendSpells h).append
    (opens_symbol hu) hbreak'
  rwa [List.append_assoc ts [t] ts', List.singleton_append] at hopen

/-- Items with commas between them. -/
theorem spells_commas {texts : List String} {tss : List (List Token)}
    (h : List.Forall₂ Spells texts tss) : Spells (commaSeparated texts) (commas tss) := by
  induction h with
  | nil => exact opens_empty.spells
  | @cons text ts texts tss hts htss ih =>
    cases htss with
    | nil =>
      rw [commas, commaSeparated, List.length_singleton, joinItems, joinItems, String.append_empty]
      exact hts
    | cons hts' htss =>
      have h := (hts.append opens_comma rfl).appendSpells ih
      rwa [List.append_assoc, List.singleton_append] at h

/-! ### The printed tree -/

/-- The tree of a binary operation. -/
theorem exists_binary (op : BinaryOp) (l r : ExprContext) : ∃ e : ExprContext,
    e.tokens = l.tokens ++ op.token :: r.tokens ∧
    e.shape = .node (.binary op.text) [l.shape, r.shape] ∧
    e.exprs = e :: (l.exprs ++ r.exprs) ∧ (e.LiteralFits ∧ e.HasMethod) ∧
    (l.Standard → r.Standard → (ExprContext.parenExpr e).Standard) := by
  cases op
  case mul | div | mod =>
    exact ⟨.multiplicativeExpr ⟨_, by decide⟩ l r, rfl, rfl, rfl, ⟨trivial, trivial⟩, And.intro⟩
  case add | sub =>
    exact ⟨.additiveExpr ⟨_, by decide⟩ l r, rfl, rfl, rfl, ⟨trivial, trivial⟩, And.intro⟩
  case gt | ge | lt | le =>
    exact ⟨.relationalExpr ⟨_, by decide⟩ l r, rfl, rfl, rfl, ⟨trivial, trivial⟩, And.intro⟩
  case eq | ne =>
    exact ⟨.equalityExpr ⟨_, by decide⟩ l r, rfl, rfl, rfl, ⟨trivial, trivial⟩, And.intro⟩
  case and | or =>
    exact ⟨.boolOps ⟨_, by decide⟩ l r, rfl, rfl, rfl, ⟨trivial, trivial⟩, And.intro⟩

theorem isPrinted_leaf {text : String} {label : NodeLabel} {u : ExprContext} (hstandard : u.Standard)
    (hshape : u.shape = .node label []) (hspells : Spells text u.tokens) (hexprs : u.exprs = [u])
    (hbuilds : u.LiteralFits ∧ u.HasMethod) (hlabel : label.exchange [] = []) :
    IsPrinted text (.node label []) u where
  standard := hstandard
  shape_eq := by rw [hshape, Shape.exchanged, Shape.exchangedList, hlabel]
  spells := hspells
  builds := by simpa [hexprs] using hbuilds

/-- A number, with its sign. -/
theorem exists_printed_number {val : ℤ} (h : (NodeLabel.number val).Lexical) :
    ∃ u, IsPrinted (toString val) (.node (.number val) []) u := by
  obtain ⟨hlow, hhigh⟩ := h
  cases val with
  | ofNat n =>
    refine ⟨.numExpr (.ofNat n), isPrinted_leaf trivial ?_ ?_ rfl ⟨?_, trivial⟩ rfl⟩
    · rw [ExprContext.shape, Numeral.value_ofNat]
      rfl
    · have htext : toString (Int.ofNat n) = String.ofList (Numeral.ofNat n).digits :=
        Nat.repr_eq_ofList_toDigits
      rw [htext]
      exact spells_numeral _
    · rw [ExprContext.LiteralFits, Numeral.value_ofNat]
      simp only [Int.ofNat_eq_natCast] at hhigh
      omega
  | negSucc n =>
    refine ⟨.negNumber (.ofNat (n + 1)), isPrinted_leaf trivial ?_ ?_ rfl ⟨?_, trivial⟩ rfl⟩
    · rw [ExprContext.shape, Numeral.value_ofNat]
      rfl
    · have htext : toString (Int.negSucc n) = "-" ++ String.ofList (Numeral.ofNat (n + 1)).digits :=
        congrArg ("-" ++ ·) (Nat.repr_eq_ofList_toDigits (n := n + 1))
      rw [htext]
      exact spells_sub_numeral _
    · rw [ExprContext.LiteralFits, Numeral.value_ofNat]
      omega

/-- A node with one operand, which is written after it. -/
theorem IsPrinted.prefix' {text : String} {label : NodeLabel} {shape : Shape} {u : ExprContext}
    {left : String} {t : Token} {f : ExprContext → ExprContext} (h : IsPrinted text shape u)
    (hleft : Opens left [t]) (hstandard : (f u).Standard)
    (hshape : (f u).shape = .node label [u.shape]) (htokens : (f u).tokens = t :: u.tokens)
    (hexprs : (f u).exprs = f u :: u.exprs) (hbuilds : (f u).LiteralFits ∧ (f u).HasMethod)
    (hlabel : ∀ cs, label.exchange cs = cs) : IsPrinted (left ++ text) (.node label [shape]) (f u) where
  standard := hstandard
  shape_eq := by
    rw [hshape, h.shape_eq, Shape.exchanged, hlabel]
    rfl
  spells := by
    rw [htokens]
    exact hleft.appendSpells h.spells
  builds := by
    rw [hexprs]
    exact List.forall_mem_cons.2 ⟨hbuilds, h.builds⟩

theorem Spells.congr {text text' : String} {ts ts' : List Token} (h : Spells text ts)
    (htext : text' = text) (htokens : ts' = ts) : Spells text' ts' := by
  rwa [htext, htokens]

/-- The trees that a list of texts is to be read as. -/
structure ArePrinted (texts : List String) (shapes : List Shape) (us : List ExprContext) : Prop where
  standard : ExprContext.StandardList us
  shape_eq : ExprContext.shapeList us = Shape.exchangedList shapes
  spells : List.Forall₂ Spells texts (ExprContext.tokensList us)
  builds : ∀ c ∈ ExprContext.exprsList us, c.LiteralFits ∧ c.HasMethod

/-- The fields that a list of texts is to be read as. -/
structure AreFieldsPrinted (texts : List String) (shapes : List Shape) (us : List FieldExprContext) :
    Prop where
  standard : ExprContext.StandardFields us
  shape_eq : ExprContext.shapeFields us = Shape.exchangedList shapes
  spells : List.Forall₂ Spells texts (ExprContext.tokensFields us)
  builds : ∀ c ∈ ExprContext.exprsFields us, c.LiteralFits ∧ c.HasMethod

mutual

/-- The text of an expression spells a tree with standard parentheses. -/
theorem ASTExpr.exists_printed : ∀ e : ASTExpr, e.shape.Lexical → ∃ u, IsPrinted e.text e.shape u
  | .numberExpr _ val, h => exists_printed_number h.1
  | .boolExpr _ val, _ => by
    cases val
    · exact ⟨.boolExpr ⟨.kFalse, by decide⟩, isPrinted_leaf trivial rfl
        (spells_keyword (t := .kFalse) (by decide)) rfl ⟨trivial, trivial⟩ rfl⟩
    · exact ⟨.boolExpr ⟨.kTrue, by decide⟩, isPrinted_leaf trivial rfl
        (spells_keyword (t := .kTrue) (by decide)) rfl ⟨trivial, trivial⟩ rfl⟩
  | .inputExpr _, _ => ⟨.inputExpr, isPrinted_leaf trivial rfl
      (spells_keyword (t := .kInput) (by decide)) rfl ⟨trivial, trivial⟩ rfl⟩
  | .nullExpr _, _ => ⟨.nullExpr, isPrinted_leaf trivial rfl
      (spells_keyword (t := .kNull) (by decide)) rfl ⟨trivial, trivial⟩ rfl⟩
  | .variableExpr _ name, h => ⟨.varExpr ⟨name, h.1⟩, isPrinted_leaf trivial rfl
      (spells_identifier ⟨name, h.1⟩) rfl ⟨trivial, trivial⟩ rfl⟩
  | .binaryExpr _ op left right, ⟨_, hl, hr, _⟩ => by
    obtain ⟨l, hl⟩ := left.exists_printed hl
    obtain ⟨r, hr⟩ := right.exists_printed hr
    obtain ⟨e, htokens, hshape, hexprs, hbuilds, hstandard⟩ := exists_binary op l r
    refine ⟨.parenExpr e, hstandard hl.standard hr.standard, ?_, ?_, ?_⟩
    · rw [ExprContext.shape, hshape, hl.shape_eq, hr.shape_eq]
      rfl
    · have hbreak : BreaksWord (" " ++ (op.text ++ " ")) := BreaksWord.append rfl
      have h := ((((opens_symbol (t := .lparen) (by decide)).appendSpells hl.spells).append
        (opens_space.append (opens_op op)) hbreak).appendSpells hr.spells).append
        (opens_symbol (t := .rparen) (by decide)) rfl
      refine h.spells.congr ?_ ?_
      · simp only [ASTExpr.text, String.append_assoc, Token.text]
      · rw [ExprContext.tokens, htokens]
        simp
    · refine List.forall_mem_cons.2 ⟨⟨trivial, trivial⟩, ?_⟩
      rw [hexprs]
      exact List.forall_mem_cons.2 ⟨hbuilds, List.forall_mem_append.2 ⟨hl.builds, hr.builds⟩⟩
  | .notExpr _ arg, ⟨_, ha, _⟩ => by
    obtain ⟨u, hu⟩ := arg.exists_printed ha
    refine ⟨.parenExpr (.notExpr u), hu.standard, ?_, ?_, ?_⟩
    · rw [ExprContext.shape, ExprContext.shape, hu.shape_eq]
      rfl
    · have h := ((opens_symbol (t := .lparen) (by decide)).append
        (opens_keyword_space (t := .kNot) (by decide))).appendSpells hu.spells
      exact (h.append (opens_symbol (t := .rparen) (by decide)) rfl).spells
    · exact List.forall_mem_cons.2 ⟨⟨trivial, trivial⟩,
        List.forall_mem_cons.2 ⟨⟨trivial, trivial⟩, hu.builds⟩⟩
  | .negExpr _ arg, ⟨_, ha, _⟩ => by
    obtain ⟨u, hu⟩ := arg.exists_printed ha
    refine ⟨.negExpr (.parenExpr u), hu.standard, ?_, ?_, ?_⟩
    · rw [ExprContext.shape, ExprContext.shape, hu.shape_eq]
      rfl
    · have h := opens_neg.appendSpells hu.spells
      exact (h.append (opens_symbol (t := .rparen) (by decide)) rfl).spells
    · exact List.forall_mem_cons.2 ⟨⟨trivial, trivial⟩,
        List.forall_mem_cons.2 ⟨⟨trivial, trivial⟩, hu.builds⟩⟩
  | .funAppExpr _ function actuals, ⟨_, hf, has⟩ => by
    obtain ⟨u, hu⟩ := function.exists_printed hf
    obtain ⟨us, hus⟩ := exists_printedList actuals has
    refine ⟨.funAppExpr u us, ⟨hu.standard, hus.standard⟩, ?_, ?_, ?_⟩
    · rw [ExprContext.shape, hu.shape_eq, hus.shape_eq]
      rfl
    · exact (hu.spells.brackets (t := .lparen) (by decide) rfl (spells_commas hus.spells)
        (u := .rparen) (by decide) rfl).spells
    · exact List.forall_mem_cons.2 ⟨⟨trivial, trivial⟩,
        List.forall_mem_append.2 ⟨hu.builds, hus.builds⟩⟩
  | .allocExpr _ initializer, ⟨_, ha, _⟩ => by
    obtain ⟨u, hu⟩ := initializer.exists_printed ha
    exact ⟨_, hu.prefix' (f := .allocExpr) (opens_keyword_space (t := .kAlloc) (by decide))
      hu.standard rfl rfl rfl ⟨trivial, trivial⟩ fun _ ↦ rfl⟩
  | .refExpr _ var, ⟨_, ha, _⟩ => by
    obtain ⟨u, hu⟩ := var.exists_printed ha
    exact ⟨_, hu.prefix' (f := .refExpr) (opens_symbol (t := .land) (by decide))
      hu.standard rfl rfl rfl ⟨trivial, trivial⟩ fun _ ↦ rfl⟩
  | .deRefExpr _ ptr, ⟨_, ha, _⟩ => by
    obtain ⟨u, hu⟩ := ptr.exists_printed ha
    exact ⟨_, hu.prefix' (f := .deRefExpr) (opens_symbol (t := .mul) (by decide))
      hu.standard rfl rfl rfl ⟨trivial, trivial⟩ fun _ ↦ rfl⟩
  | .arrayLenExpr _ ptr, ⟨_, ha, _⟩ => by
    obtain ⟨u, hu⟩ := ptr.exists_printed ha
    exact ⟨_, hu.prefix' (f := .arrayLenExpr) (opens_symbol (t := .hash) (by decide))
      hu.standard rfl rfl rfl ⟨trivial, trivial⟩ fun _ ↦ rfl⟩
  | .recordExpr _ fields, ⟨_, hfs⟩ => by
    obtain ⟨us, hus⟩ := exists_printedFields fields hfs
    refine ⟨.recordRule us, hus.standard, ?_, ?_, ?_⟩
    · rw [ExprContext.shape, hus.shape_eq]
      rfl
    · have h := (opens_symbol (t := .lbrace) (by decide)).appendSpells (spells_commas hus.spells)
      exact (h.append (opens_symbol (t := .rbrace) (by decide)) rfl).spells
    · exact List.forall_mem_cons.2 ⟨⟨trivial, trivial⟩, hus.builds⟩
  | .accessExpr _ record field, ⟨hx, ha, _⟩ => by
    obtain ⟨u, hu⟩ := record.exists_printed ha
    refine ⟨.accessExpr u ⟨field, hx⟩, hu.standard, ?_, ?_, ?_⟩
    · rw [ExprContext.shape, hu.shape_eq]
      rfl
    · have h := hu.spells.appendSpells (spells_dot_identifier ⟨field, hx⟩) (BreaksWord.append rfl)
      exact h.congr (String.append_assoc ..) rfl
    · exact List.forall_mem_cons.2 ⟨⟨trivial, trivial⟩, hu.builds⟩
  | .ternaryExpr _ condition thenExpr elseExpr, ⟨_, hc, ht, hf, _⟩ => by
    obtain ⟨c, hc⟩ := condition.exists_printed hc
    obtain ⟨t, ht⟩ := thenExpr.exists_printed ht
    obtain ⟨f, hf⟩ := elseExpr.exists_printed hf
    refine ⟨.ternaryExpr c t f, ⟨hc.standard, ht.standard, hf.standard⟩, ?_, ?_, ?_⟩
    · rw [ExprContext.shape, hc.shape_eq, ht.shape_eq, hf.shape_eq]
      rfl
    · have h := (((hc.spells.append opens_question rfl).appendSpells ht.spells).append
        opens_colon rfl).appendSpells hf.spells
      refine h.congr rfl ?_
      simp only [ExprContext.tokens, List.append_assoc, List.singleton_append]
    · exact List.forall_mem_cons.2 ⟨⟨trivial, trivial⟩, List.forall_mem_append.2
        ⟨hc.builds, List.forall_mem_append.2 ⟨ht.builds, hf.builds⟩⟩⟩
  | .arrayExpr _ elements, ⟨_, hes⟩ => by
    obtain ⟨us, hus⟩ := exists_printedList elements hes
    refine ⟨.arrayLiteral us, hus.standard, ?_, ?_, ?_⟩
    · rw [ExprContext.shape, hus.shape_eq]
      rfl
    · have h := (opens_symbol (t := .lbracket) (by decide)).appendSpells (spells_commas hus.spells)
      exact (h.append (opens_symbol (t := .rbracket) (by decide)) rfl).spells
    · exact List.forall_mem_cons.2 ⟨⟨trivial, trivial⟩, hus.builds⟩
  | .arrayOfExpr _ e1 e2, ⟨_, h1, h2, _⟩ => by
    obtain ⟨u, hu⟩ := e1.exists_printed h1
    obtain ⟨v, hv⟩ := e2.exists_printed h2
    refine ⟨.arrayOfExpr v u, ⟨hv.standard, hu.standard⟩, ?_, ?_, ?_⟩
    · rw [ExprContext.shape, hu.shape_eq, hv.shape_eq]
      rfl
    · have h := (((opens_symbol (t := .lbracket) (by decide)).appendSpells hv.spells).append
        opens_of rfl).appendSpells hu.spells
      refine (h.append (opens_symbol (t := .rbracket) (by decide)) rfl).spells.congr rfl ?_
      simp only [ExprContext.tokens, List.append_assoc, List.cons_append, List.nil_append]
    · exact List.forall_mem_cons.2 ⟨⟨trivial, trivial⟩,
        List.forall_mem_append.2 ⟨hv.builds, hu.builds⟩⟩
  | .indexingExpr _ arr idx, ⟨_, h1, h2, _⟩ => by
    obtain ⟨u, hu⟩ := arr.exists_printed h1
    obtain ⟨v, hv⟩ := idx.exists_printed h2
    refine ⟨.arrayIndexingExpr u v, ⟨hu.standard, hv.standard⟩, ?_, ?_, ?_⟩
    · rw [ExprContext.shape, hu.shape_eq, hv.shape_eq]
      rfl
    · exact (hu.spells.brackets (t := .lbracket) (by decide) rfl hv.spells (u := .rbracket)
        (by decide) rfl).spells
    · exact List.forall_mem_cons.2 ⟨⟨trivial, trivial⟩,
        List.forall_mem_append.2 ⟨hu.builds, hv.builds⟩⟩

theorem exists_printedList : ∀ es : List ASTExpr, Shape.LexicalList (ASTExpr.shapeList es) →
    ∃ us, ArePrinted (ASTExpr.textList es) (ASTExpr.shapeList es) us
  | [], _ => ⟨[], trivial, rfl, .nil, by simp [ExprContext.exprsList]⟩
  | e :: es, ⟨he, hes⟩ => by
    obtain ⟨u, hu⟩ := e.exists_printed he
    obtain ⟨us, hus⟩ := exists_printedList es hes
    refine ⟨u :: us, ⟨hu.standard, hus.standard⟩, ?_, .cons hu.spells hus.spells,
      List.forall_mem_append.2 ⟨hu.builds, hus.builds⟩⟩
    rw [ExprContext.shapeList, hu.shape_eq, hus.shape_eq]
    rfl

theorem exists_printedFields : ∀ fs : List ASTFieldExpr,
    Shape.LexicalList (ASTExpr.shapeFields fs) →
    ∃ us, AreFieldsPrinted (ASTExpr.textFields fs) (ASTExpr.shapeFields fs) us
  | [], _ => ⟨[], trivial, rfl, .nil, by simp [ExprContext.exprsFields]⟩
  | .mk _ field initializer :: fs, ⟨⟨hx, he, _⟩, hfs⟩ => by
    obtain ⟨u, hu⟩ := initializer.exists_printed he
    obtain ⟨us, hus⟩ := exists_printedFields fs hfs
    have hspells := ((spells_identifier ⟨field, hx⟩).append
      (opens_symbol (t := .colon) (by decide)) rfl).appendSpells hu.spells
    refine ⟨.mk ⟨field, hx⟩ u :: us, ⟨hu.standard, hus.standard⟩, ?_, .cons hspells hus.spells,
      List.forall_mem_append.2 ⟨hu.builds, hus.builds⟩⟩
    rw [ExprContext.shapeFields, hu.shape_eq, hus.shape_eq]
    rfl

end

/-! ### Reading what was printed -/

/-- The front end builds the expression from the text. -/
def ASTExpr.IsReadFrom (e : ASTExpr) (text : String) : Prop :=
  ∃ ts n t s s', tokenise text = some ts ∧ parseExpr n 0 ts = some (t, []) ∧
    Returns t.visit s () s' ∧ s'.visitedExpr = some e

/-- What the printer pushes for an expression. -/
def PrettyPrinter.printExpr (indentChar : Char) (indentSize level : ℕ) (e : ASTExpr) :
    Option String := do
  let p ← visitAll indentChar indentSize ⟨[""], level⟩ e.accept
  p.visitResults.head?

theorem printExpr_eq (indentChar : Char) (indentSize level : ℕ) (e : ASTExpr) :
    PrettyPrinter.printExpr indentChar indentSize level e = some e.text := by
  rw [PrettyPrinter.printExpr, e.pushes_text "" []]
  rfl

/-- What is known of the tree that an expression was built from. -/
theorem ASTExpr.IsReadFrom.exists_tree {e : ASTExpr} {text : String} {ts : List Token}
    (h : e.IsReadFrom text) (hts : tokenise text = some ts) : ∃ t : ExprContext,
      t.Respects ∧ t.tokens = ts ∧ Shape.sizeList [e.shape] ≤ Shape.sizeList [t.shape] ∧
      (Shape.sizeList [e.shape] = Shape.sizeList [t.shape] → e.shape = t.shape) ∧
      e.shape.Lexical := by
  obtain ⟨ts', n, t, s, s', hts', hparse, hreturns, hvisited⟩ := h
  cases hts.symm.trans hts'
  obtain ⟨htokens, hrespects⟩ := parseExpr_sound hparse
  obtain ⟨e', he', hbuilt⟩ := (t.builds_visit s).post () s' hreturns
  cases hvisited.symm.trans he'
  refine ⟨t, hrespects, htokens.symm, hbuilt.size_le, fun hsize ↦ ?_, hbuilt.lexical.1⟩
  have hplain : ∀ d ∈ t.exprs, d.HasMethod := by
    by_contra hp
    exact absurd (hbuilt.size_lt hp) (by rw [hsize]; exact Nat.lt_irrefl _)
  exact (List.cons.inj (hbuilt.shapes_eq hplain)).1

/-- A tree that respects the levels and that the builder has methods for is read from its text. -/
theorem exists_isReadFrom {text : String} {u : ExprContext} (hspells : Spells text u.tokens)
    (hrespects : u.Respects) (hbuilds : ∀ c ∈ u.exprs, c.LiteralFits ∧ c.HasMethod) :
    ∃ e : ASTExpr, e.IsReadFrom text ∧ e.shape = u.shape := by
  obtain ⟨n, hn⟩ := hrespects.settles.exists_forall
  have hvisit := u.builds_visit .initial
  obtain ⟨_, s', hreturns⟩ := hvisit.returns fun c hc ↦ (hbuilds c hc).1
  obtain ⟨e, he, hbuilt⟩ := hvisit.post () s' hreturns
  refine ⟨e, ⟨u.tokens, n, u, .initial, s', hspells.tokenise_eq, hn n (Nat.le_refl n), hreturns, he⟩,
    ?_⟩
  exact (List.cons.inj (hbuilt.shapes_eq fun c hc ↦ (hbuilds c hc).2)).1

/-- What the printer writes for an expression is read as the same expression exactly where its
operands have the levels of their places and exchanging the operands of every `[E1 of E2]` makes no
difference. -/
theorem ASTExpr.reread_iff {e : ASTExpr} {source : String} (hsource : e.IsReadFrom source)
    (indentChar : Char) (indentSize level : ℕ) :
    (∃ text e', PrettyPrinter.printExpr indentChar indentSize level e = some text ∧
      ASTExpr.IsReadFrom e' text ∧ e'.shape = e.shape) ↔
      e.shape.Respects ∧ e.shape.exchanged = e.shape := by
  obtain ⟨ts, _, _, _, _, hts, -⟩ := id hsource
  obtain ⟨_, -, -, -, -, hlexical⟩ := hsource.exists_tree hts
  obtain ⟨u, hu⟩ := e.exists_printed hlexical
  have halike := e.shape.exchanged_alike
  constructor
  · rintro ⟨text, e', htext, hread, hshape⟩
    cases (printExpr_eq indentChar indentSize level e).symm.trans htext
    obtain ⟨t, ht, htokens, -, hsize, -⟩ := hread.exists_tree hu.spells.tokenise_eq
    have hexact := hu.standard.exact
    -- no node was lost, since the sizes agree
    obtain ⟨-, hsizes, -⟩ := grouped_of_tokens_eq ht.negsOk hexact.negsOk htokens hexact.grouped
    have hsame : e'.shape.size = t.shape.size := by
      rw [hshape, hsizes, hu.shape_eq, halike.size]
    have hts : e.shape = t.shape := by
      rw [← hshape]
      exact hsize (by simp only [Shape.sizeList, hsame])
    have hweight : t.shape.weight = u.shape.weight := by
      rw [← hts, hu.shape_eq, halike.weight]
    have hstandard := standard_of_tokens_eq ht.negsOk hu.standard htokens hweight
    have hrespects : e.shape.Respects := by
      rw [hts]
      exact hstandard.sameLevels.respects.1 ht
    have hurespects : u.Respects := by
      rw [hu.standard.sameLevels.respects, hu.shape_eq, halike.respects]
      exact hrespects
    refine ⟨hrespects, ?_⟩
    rw [← hu.shape_eq, ← ht.ext hurespects htokens, hts]
  · rintro ⟨hrespects, hexchanged⟩
    have hurespects : u.Respects := by
      rw [hu.standard.sameLevels.respects, hu.shape_eq, halike.respects]
      exact hrespects
    obtain ⟨e', hread, hshape⟩ := exists_isReadFrom hu.spells hurespects hu.builds
    exact ⟨e.text, e', printExpr_eq indentChar indentSize level e, hread,
      hshape.trans (hu.shape_eq.trans hexchanged)⟩

/-- `2 * x`. -/
def timesTwo : ASTExpr :=
  .binaryExpr 2 .mul (.numberExpr 0 2) (.variableExpr 1 "x")

theorem timesTwo_isReadFrom : timesTwo.IsReadFrom "2 * x" := by
  refine ⟨[.number (.ofNat 2), .mul, .identifier ⟨"x", by decide⟩], 9, _, .initial,
    _, by decide, rfl, ⟨rfl, rfl⟩, rfl⟩

theorem reread_timesTwo : ∃ text e', PrettyPrinter.printExpr ' ' 2 1 timesTwo = some text ∧
    ASTExpr.IsReadFrom e' text ∧ e'.shape = timesTwo.shape :=
  (ASTExpr.reread_iff timesTwo_isReadFrom ' ' 2 1).2
    ⟨by simp [timesTwo, ASTExpr.shape, Shape.Respects, Shape.RespectsList, NodeLabel.Fits,
      Shape.loopLevel, Shape.openLevel, opLevel, BinaryOp.text], rfl⟩

/-- `[2 of 3]`. -/
def twoOfThree : ASTExpr :=
  .arrayOfExpr 2 (.numberExpr 0 2) (.numberExpr 1 3)

/-- The text of `[2 of 3]` is `[3 of 2]`. -/
theorem not_reread_twoOfThree : twoOfThree.IsReadFrom "[2 of 3]" ∧
    ¬ ∃ text e', PrettyPrinter.printExpr ' ' 2 1 twoOfThree = some text ∧
      ASTExpr.IsReadFrom e' text ∧ e'.shape = twoOfThree.shape := by
  refine ⟨⟨[.lbracket, .number (.ofNat 2), .kOf,
    .number (.ofNat 3), .rbracket], 9, _, .initial, _, by decide, rfl, ⟨rfl, rfl⟩,
    rfl⟩, ?_⟩
  rintro ⟨text, e', htext, hread, hshape⟩
  cases (printExpr_eq ' ' 2 1 twoOfThree).symm.trans htext
  have hlex : tokenise twoOfThree.text = some [.lbracket, .number (.ofNat 3), .kOf,
      .number (.ofNat 2), .rbracket] := by decide
  obtain ⟨t, ht, htokens, -, hsize, -⟩ := hread.exists_tree hlex
  have htree : t = .arrayOfExpr (.numExpr (.ofNat 3))
      (.numExpr (.ofNat 2)) := ht.ext ⟨trivial, trivial⟩ htokens
  subst htree
  have heq := hshape.symm.trans (hsize (by rw [hshape]; rfl))
  simp only [twoOfThree, ASTExpr.shape, ExprContext.shape, Shape.node.injEq, List.cons.injEq,
    NodeLabel.number.injEq, true_and, and_true] at heq
  exact absurd heq.1 (by decide)

end Sipc
