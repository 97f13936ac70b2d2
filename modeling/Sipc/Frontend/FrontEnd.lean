import Sipc.Frontend.ASTBuilderCorrectness
import Sipc.Frontend.Lexer
import Sipc.Library.Brackets

/-!
# The front end

`FrontEnd::parse`: the lexer, the generated method of the rule `program` and the AST builder. The
method of `function` is generated from the grammar, and of it only what is generated for every rule is
assumed (`GeneratedFunction`). The rule `program` does not name the end of the input, so its loop ends
before every token that no function begins with, and the lexer is not asked for more.

A text is parsed as the grammar says exactly where it is no program followed by such a token, and its
numbers fit (`FrontEnd.acceptsExactly_iff`). A function ends at the brace that closes its first one, so
a text begins with at most one function (`FunctionContext.append_inj`).
-/

set_option autoImplicit false
set_option relaxedAutoImplicit false

namespace Sipc

open Library

/-! ### The yield of a program -/

mutual

def StatementContext.tokens : StatementContext → List Token
  | .blockStmt stmts => .lbrace :: (StatementContext.tokensList stmts ++ [.rbrace])
  | .assignStmt lhs rhs => lhs.tokens ++ .assign :: (rhs.tokens ++ [.semi])
  | .updateStmt arg op => arg.tokens ++ [op.1, .semi]
  | .whileStmt condition body => .kWhile :: .lparen :: (condition.tokens ++ .rparen :: body.tokens)
  | .forByStmt item rangeStart rangeEnd increment body =>
    .kFor :: .lparen :: (item.tokens ++ .colon :: (rangeStart.tokens ++ .dotDot ::
      (rangeEnd.tokens ++ .kBy :: (increment.tokens ++ .rparen :: body.tokens))))
  | .forRangeStmt item rangeStart rangeEnd body =>
    .kFor :: .lparen :: (item.tokens ++ .colon :: (rangeStart.tokens ++ .dotDot ::
      (rangeEnd.tokens ++ .rparen :: body.tokens)))
  | .forInStmt item iterator body =>
    .kFor :: .lparen :: (item.tokens ++ .colon :: (iterator.tokens ++ .rparen :: body.tokens))
  | .ifStmt condition thenStmt =>
    .kIf :: .lparen :: (condition.tokens ++ .rparen :: thenStmt.tokens)
  | .ifElseStmt condition thenStmt elseStmt =>
    .kIf :: .lparen :: (condition.tokens ++ .rparen :: (thenStmt.tokens ++
      .kElse :: elseStmt.tokens))
  | .outputStmt arg => .kOutput :: (arg.tokens ++ [.semi])
  | .errorStmt arg => .kError :: (arg.tokens ++ [.semi])

def StatementContext.tokensList : List StatementContext → List Token
  | [] => []
  | s :: ss => s.tokens ++ StatementContext.tokensList ss

end

/-- Names with commas between them. -/
def nameTokens (xs : List Identifier) : List Token :=
  commas (xs.map fun x ↦ [.identifier x])

def DeclarationContext.tokens (d : DeclarationContext) : List Token :=
  .kVar :: (nameTokens d.names ++ [.semi])

/-- The tokens of a function before its first brace. -/
def FunctionContext.headTokens (f : FunctionContext) : List Token :=
  .identifier f.name :: .lparen :: (nameTokens f.formals ++ .rparen :: if f.poly then [.kPoly] else [])

/-- The tokens of a function between its braces. -/
def FunctionContext.bodyTokens (f : FunctionContext) : List Token :=
  f.declarations.flatMap DeclarationContext.tokens ++ (StatementContext.tokensList f.statements ++
    .kReturn :: (f.returned.tokens ++ [.semi]))

def FunctionContext.tokens (f : FunctionContext) : List Token :=
  f.headTokens ++ .lbrace :: (f.bodyTokens ++ [.rbrace])

def ProgramContext.tokens (p : ProgramContext) : List Token :=
  p.functions.flatMap FunctionContext.tokens

/-! ### Braces -/

/-- The braces of the tokens match. -/
abbrev Braced (ts : List Token) : Prop :=
  Balanced Token.lbrace Token.rbrace ts

theorem braced_op {l : List Token} (hl : ∀ t ∈ l, t ≠ .lbrace ∧ t ≠ .rbrace) (op : OneOf l)
    {ts : List Token} (h : Braced ts) : Braced (op.1 :: ts) :=
  Balanced.cons (hl _ op.2).1 (hl _ op.2).2 h

theorem braced_cons {t : Token} {ts : List Token} (ht : t ≠ .lbrace ∧ t ≠ .rbrace) (h : Braced ts) :
    Braced (t :: ts) :=
  Balanced.cons ht.1 ht.2 h

theorem braced_singleton {t : Token} (ht : t ≠ .lbrace ∧ t ≠ .rbrace) : Braced [t] :=
  Balanced.symbol ht.1 ht.2

theorem braced_commas : ∀ {tss : List (List Token)}, (∀ ts ∈ tss, Braced ts) → Braced (commas tss)
  | [], _ => Balanced.nil
  | [_], h => h _ List.mem_cons_self
  | _ :: _ :: _, h =>
    (h _ List.mem_cons_self).append
      (braced_cons (by decide) (braced_commas fun ts hts ↦ h ts (List.mem_cons_of_mem _ hts)))

theorem braced_nameTokens (xs : List Identifier) : Braced (nameTokens xs) := by
  refine braced_commas fun ts hts ↦ ?_
  obtain ⟨x, -, rfl⟩ := List.mem_map.1 hts
  exact braced_singleton (by simp)

mutual

theorem ExprContext.braced : ∀ e : ExprContext, Braced e.tokens
  | .funAppExpr f as =>
    (f.braced.append (braced_cons (by decide) (braced_commas (braced_tokensList as)))).append
      (braced_singleton (by decide))
  | .accessExpr r _ => r.braced.append (braced_cons (by decide) (braced_singleton (by simp)))
  | .deRefExpr a | .negExpr a | .refExpr a | .arrayLenExpr a | .notExpr a | .allocExpr a =>
    braced_cons (by decide) a.braced
  | .arrayIndexingExpr a i =>
    (a.braced.append (braced_cons (by decide) i.braced)).append (braced_singleton (by decide))
  | .negNumber _ => braced_cons (by decide) (braced_singleton (by simp))
  | .multiplicativeExpr op l r | .additiveExpr op l r | .relationalExpr op l r
  | .equalityExpr op l r | .nonShortCircuiting op l r | .boolOps op l r =>
    l.braced.append (braced_op (by decide) op r.braced)
  | .ternaryExpr c t f =>
    (c.braced.append (braced_cons (by decide) t.braced)).append (braced_cons (by decide) f.braced)
  | .varExpr _ | .numExpr _ => braced_singleton (by simp)
  | .inputExpr | .nullExpr => braced_singleton (by decide)
  | .boolExpr op => braced_op (by decide) op Balanced.nil
  | .recordRule fs => Balanced.bracketed (braced_commas (braced_tokensFields fs))
  | .arrayLiteral es => braced_cons (by decide)
      ((braced_commas (braced_tokensList es)).append (braced_singleton (by decide)))
  | .arrayOfExpr a b =>
    ((braced_cons (by decide) a.braced).append (braced_cons (by decide) b.braced)).append
      (braced_singleton (by decide))
  | .parenExpr e => braced_cons (by decide) (e.braced.append (braced_singleton (by decide)))

theorem braced_tokensList : ∀ es : List ExprContext, ∀ ts ∈ ExprContext.tokensList es, Braced ts
  | [] => List.forall_mem_nil _
  | e :: es => List.forall_mem_cons.2 ⟨e.braced, braced_tokensList es⟩

theorem braced_tokensFields :
    ∀ fs : List FieldExprContext, ∀ ts ∈ ExprContext.tokensFields fs, Braced ts
  | [] => List.forall_mem_nil _
  | .mk _ e :: fs => List.forall_mem_cons.2
      ⟨braced_cons (by simp) (braced_cons (by decide) e.braced), braced_tokensFields fs⟩

end

mutual

theorem StatementContext.braced : ∀ s : StatementContext, Braced s.tokens
  | .blockStmt ss => Balanced.bracketed (StatementContext.bracedList ss)
  | .assignStmt l r => l.braced.append (braced_cons (by decide)
      (r.braced.append (braced_singleton (by decide))))
  | .updateStmt a op => a.braced.append (braced_op (by decide) op (braced_singleton (by decide)))
  | .whileStmt c b | .ifStmt c b => braced_cons (by decide) (braced_cons (by decide)
      (c.braced.append (braced_cons (by decide) b.braced)))
  | .forByStmt i s e k b => braced_cons (by decide) (braced_cons (by decide)
      (i.braced.append (braced_cons (by decide) (s.braced.append (braced_cons (by decide)
        (e.braced.append (braced_cons (by decide) (k.braced.append
          (braced_cons (by decide) b.braced)))))))))
  | .forRangeStmt i s e b => braced_cons (by decide) (braced_cons (by decide)
      (i.braced.append (braced_cons (by decide) (s.braced.append (braced_cons (by decide)
        (e.braced.append (braced_cons (by decide) b.braced)))))))
  | .forInStmt i a b => braced_cons (by decide) (braced_cons (by decide)
      (i.braced.append (braced_cons (by decide) (a.braced.append
        (braced_cons (by decide) b.braced)))))
  | .ifElseStmt c t f => braced_cons (by decide) (braced_cons (by decide)
      (c.braced.append (braced_cons (by decide) (t.braced.append
        (braced_cons (by decide) f.braced)))))
  | .outputStmt a | .errorStmt a =>
    braced_cons (by decide) (a.braced.append (braced_singleton (by decide)))

theorem StatementContext.bracedList :
    ∀ ss : List StatementContext, Braced (StatementContext.tokensList ss)
  | [] => Balanced.nil
  | s :: ss => s.braced.append (StatementContext.bracedList ss)

end

theorem DeclarationContext.braced (d : DeclarationContext) : Braced d.tokens :=
  braced_cons (by decide) ((braced_nameTokens d.names).append (braced_singleton (by decide)))

theorem FunctionContext.braced_bodyTokens (f : FunctionContext) : Braced f.bodyTokens := by
  have hdecls : Braced (f.declarations.flatMap DeclarationContext.tokens) := by
    induction f.declarations with
    | nil => exact Balanced.nil
    | cons d ds ih => exact d.braced.append ih
  exact hdecls.append ((StatementContext.bracedList f.statements).append
    (braced_cons (by decide) (f.returned.braced.append (braced_singleton (by decide)))))

theorem FunctionContext.lbrace_not_mem_headTokens (f : FunctionContext) :
    ∀ t ∈ f.headTokens, t ≠ .lbrace := by
  have hnames : ∀ t ∈ nameTokens f.formals, t ≠ .lbrace := by
    rw [nameTokens]
    induction f.formals with
    | nil => exact List.forall_mem_nil _
    | cons x xs ih =>
      cases xs with
      | nil => exact List.forall_mem_singleton.2 (by simp)
      | cons y ys =>
        exact List.forall_mem_cons.2 ⟨by simp, List.forall_mem_cons.2 ⟨by decide, ih⟩⟩
  have hpoly : ∀ t ∈ (if f.poly then [Token.kPoly] else []), t ≠ .lbrace := by
    split <;> simp
  exact List.forall_mem_cons.2 ⟨by simp, List.forall_mem_cons.2 ⟨by decide,
    List.forall_mem_append.2 ⟨hnames, List.forall_mem_cons.2 ⟨by decide, hpoly⟩⟩⟩⟩

theorem FunctionContext.afterBracketed_append (f : FunctionContext) (rest : List Token) :
    afterBracketed Token.lbrace Token.rbrace (f.tokens ++ rest) = some rest := by
  have h := Library.afterBracketed_append (by decide) f.lbrace_not_mem_headTokens
    f.braced_bodyTokens rest
  rw [← h, FunctionContext.tokens]
  simp only [List.append_assoc, List.cons_append, List.nil_append]

/-- A text begins with at most one function. -/
theorem FunctionContext.append_inj {f g : FunctionContext} {rest rest' : List Token}
    (h : f.tokens ++ rest = g.tokens ++ rest') : rest = rest' := by
  have hf := f.afterBracketed_append rest
  rw [h, g.afterBracketed_append] at hf
  exact (Option.some.inj hf).symm

/-! ### Numbers -/

/-- The numbers among the tokens fit an `int`. -/
def NumbersFit (ts : List Token) : Prop :=
  ∀ n : Numeral, .number n ∈ ts → n.value < 2 ^ 31

theorem numbersFit_nil : NumbersFit [] :=
  fun _ h ↦ absurd h List.not_mem_nil

theorem numbersFit_append {ts us : List Token} :
    NumbersFit (ts ++ us) ↔ NumbersFit ts ∧ NumbersFit us := by
  constructor
  · exact fun h ↦ ⟨fun n hn ↦ h n (List.mem_append_left _ hn),
      fun n hn ↦ h n (List.mem_append_right _ hn)⟩
  · rintro ⟨ht, hu⟩ n hn
    exact (List.mem_append.1 hn).elim (ht n) (hu n)

theorem numbersFit_cons {t : Token} {ts : List Token} (ht : ∀ n, t ≠ .number n) :
    NumbersFit (t :: ts) ↔ NumbersFit ts := by
  refine ⟨fun h n hn ↦ h n (List.mem_cons_of_mem _ hn), fun h n hn ↦ ?_⟩
  rcases List.mem_cons.1 hn with heq | hn
  · exact absurd heq.symm (ht n)
  · exact h n hn

theorem numbersFit_number {n : Numeral} : NumbersFit [.number n] ↔ n.value < 2 ^ 31 := by
  constructor
  · exact fun h ↦ h n List.mem_cons_self
  · intro h m hm
    cases List.mem_singleton.1 hm
    exact h

theorem numbersFit_op {l : List Token} (hl : ∀ t ∈ l, ∀ n, t ≠ .number n) (op : OneOf l)
    {ts : List Token} : NumbersFit (op.1 :: ts) ↔ NumbersFit ts :=
  numbersFit_cons (hl _ op.2)

theorem numbersFit_commas : ∀ tss : List (List Token),
    NumbersFit (commas tss) ↔ ∀ ts ∈ tss, NumbersFit ts
  | [] => iff_of_true numbersFit_nil (List.forall_mem_nil _)
  | [ts] => List.forall_mem_singleton.symm
  | ts :: ts' :: tss => by
    rw [commas, numbersFit_append, numbersFit_cons (by simp), numbersFit_commas (ts' :: tss)]
    exact List.forall_mem_cons.symm

theorem numbersFit_node {e : ExprContext} {es : List ExprContext} {ts : List Token}
    (hexprs : e.exprs = e :: es) (he : e.LiteralFits)
    (h : NumbersFit ts ↔ ∀ d ∈ es, d.LiteralFits) : NumbersFit ts ↔ e.Fits := by
  rw [h, ExprContext.Fits, hexprs, List.forall_mem_cons, and_iff_right he]

mutual

/-- The literals of an expression are the numbers among its tokens. -/
theorem ExprContext.numbersFit_tokens : ∀ e : ExprContext, NumbersFit e.tokens ↔ e.Fits
  | .funAppExpr f as => by
    refine numbersFit_node rfl trivial ?_
    rw [List.forall_mem_append, ExprContext.tokens, numbersFit_append,
      numbersFit_append, numbersFit_cons (by simp), numbersFit_commas, numbersFit_tokensList as,
      numbersFit_cons (by simp), and_iff_left numbersFit_nil, f.numbersFit_tokens, ExprContext.Fits]
  | .accessExpr r _ => by
    refine numbersFit_node rfl trivial ?_
    rw [ExprContext.tokens, numbersFit_append, numbersFit_cons (by simp),
      numbersFit_cons (by simp), and_iff_left numbersFit_nil, r.numbersFit_tokens, ExprContext.Fits]
  | .deRefExpr a | .negExpr a | .refExpr a | .arrayLenExpr a | .notExpr a | .allocExpr a => by
    refine numbersFit_node rfl trivial ?_
    rw [ExprContext.tokens, numbersFit_cons (by simp), a.numbersFit_tokens,
      ExprContext.Fits]
  | .arrayIndexingExpr a i => by
    refine numbersFit_node rfl trivial ?_
    rw [List.forall_mem_append, ExprContext.tokens, numbersFit_append,
      numbersFit_append, numbersFit_cons (by simp), numbersFit_cons (by simp),
      and_iff_left numbersFit_nil, a.numbersFit_tokens, i.numbersFit_tokens, ExprContext.Fits,
      ExprContext.Fits]
  | .negNumber _ => by
    rw [fits_leaf rfl, ExprContext.tokens, numbersFit_cons (by simp), numbersFit_number]
    rfl
  | .multiplicativeExpr op l r | .additiveExpr op l r | .relationalExpr op l r
  | .equalityExpr op l r | .nonShortCircuiting op l r | .boolOps op l r => by
    refine numbersFit_node rfl trivial ?_
    rw [List.forall_mem_append, ExprContext.tokens, numbersFit_append,
      numbersFit_op (by simp), l.numbersFit_tokens, r.numbersFit_tokens, ExprContext.Fits,
      ExprContext.Fits]
  | .ternaryExpr c t f => by
    refine numbersFit_node rfl trivial ?_
    rw [List.forall_mem_append, List.forall_mem_append, ExprContext.tokens,
      numbersFit_append, numbersFit_append, numbersFit_cons (by simp), numbersFit_cons (by simp),
      c.numbersFit_tokens, t.numbersFit_tokens, f.numbersFit_tokens, and_assoc, ExprContext.Fits,
      ExprContext.Fits, ExprContext.Fits]
  | .varExpr _ | .inputExpr | .nullExpr => by
    refine numbersFit_node rfl trivial ?_
    rw [ExprContext.tokens, numbersFit_cons (by simp)]
    exact iff_of_true numbersFit_nil (List.forall_mem_nil _)
  | .numExpr _ => by
    rw [fits_leaf rfl, ExprContext.tokens, numbersFit_number]
    rfl
  | .boolExpr op => by
    refine numbersFit_node rfl trivial ?_
    rw [ExprContext.tokens, numbersFit_op (by simp)]
    exact iff_of_true numbersFit_nil (List.forall_mem_nil _)
  | .recordRule fs => by
    refine numbersFit_node rfl trivial ?_
    rw [ExprContext.tokens, numbersFit_append, numbersFit_cons (by simp),
      numbersFit_commas, numbersFit_tokensFields fs, numbersFit_cons (by simp),
      and_iff_left numbersFit_nil]
  | .arrayLiteral es => by
    refine numbersFit_node rfl trivial ?_
    rw [ExprContext.tokens, numbersFit_append, numbersFit_cons (by simp),
      numbersFit_commas, numbersFit_tokensList es, numbersFit_cons (by simp),
      and_iff_left numbersFit_nil]
  | .arrayOfExpr a b => by
    refine numbersFit_node rfl trivial ?_
    rw [List.forall_mem_append, ExprContext.tokens, numbersFit_append,
      numbersFit_append, numbersFit_cons (by simp), numbersFit_cons (by simp),
      numbersFit_cons (by simp), and_iff_left numbersFit_nil, a.numbersFit_tokens,
      b.numbersFit_tokens, ExprContext.Fits, ExprContext.Fits]
  | .parenExpr e => by
    refine numbersFit_node rfl trivial ?_
    rw [ExprContext.tokens, numbersFit_append, numbersFit_cons (by simp),
      numbersFit_cons (by simp), and_iff_left numbersFit_nil, e.numbersFit_tokens, ExprContext.Fits]

theorem numbersFit_tokensList : ∀ es : List ExprContext,
    (∀ ts ∈ ExprContext.tokensList es, NumbersFit ts) ↔
      ∀ d ∈ ExprContext.exprsList es, d.LiteralFits
  | [] => iff_of_true (List.forall_mem_nil _) (List.forall_mem_nil _)
  | e :: es => by
    rw [ExprContext.tokensList, ExprContext.exprsList, List.forall_mem_cons,
      List.forall_mem_append, e.numbersFit_tokens, numbersFit_tokensList es, ExprContext.Fits]

theorem numbersFit_tokensFields : ∀ fs : List FieldExprContext,
    (∀ ts ∈ ExprContext.tokensFields fs, NumbersFit ts) ↔
      ∀ d ∈ ExprContext.exprsFields fs, d.LiteralFits
  | [] => iff_of_true (List.forall_mem_nil _) (List.forall_mem_nil _)
  | .mk _ e :: fs => by
    rw [ExprContext.tokensFields, ExprContext.exprsFields, List.forall_mem_cons,
      List.forall_mem_append, numbersFit_cons (by simp), numbersFit_cons (by simp),
      e.numbersFit_tokens, numbersFit_tokensFields fs, ExprContext.Fits]

end

mutual

theorem StatementContext.numbersFit_tokens : ∀ s : StatementContext,
    NumbersFit s.tokens ↔ ∀ d ∈ s.exprs, d.LiteralFits
  | .blockStmt ss => by
    rw [StatementContext.tokens, StatementContext.exprs, numbersFit_cons (by simp),
      numbersFit_append, numbersFit_cons (by simp), and_iff_left numbersFit_nil,
      numbersFit_tokensStmts ss]
  | .assignStmt l r => by
    rw [StatementContext.tokens, StatementContext.exprs, List.forall_mem_append,
      numbersFit_append, numbersFit_cons (by simp), numbersFit_append, numbersFit_cons (by simp),
      and_iff_left numbersFit_nil, l.numbersFit_tokens, r.numbersFit_tokens]
  | .updateStmt a op => by
    rw [StatementContext.tokens, StatementContext.exprs, numbersFit_append, numbersFit_op (by simp),
      numbersFit_cons (by simp), and_iff_left numbersFit_nil, a.numbersFit_tokens]
  | .whileStmt c b | .ifStmt c b => by
    rw [StatementContext.tokens, StatementContext.exprs, List.forall_mem_append,
      numbersFit_cons (by simp), numbersFit_cons (by simp), numbersFit_append,
      numbersFit_cons (by simp), c.numbersFit_tokens, b.numbersFit_tokens]
  | .forByStmt i s e k b => by
    rw [StatementContext.tokens, StatementContext.exprs, List.forall_mem_append,
      List.forall_mem_append, List.forall_mem_append, List.forall_mem_append,
      numbersFit_cons (by simp), numbersFit_cons (by simp), numbersFit_append,
      numbersFit_cons (by simp), numbersFit_append, numbersFit_cons (by simp), numbersFit_append,
      numbersFit_cons (by simp), numbersFit_append, numbersFit_cons (by simp),
      i.numbersFit_tokens, s.numbersFit_tokens, e.numbersFit_tokens, k.numbersFit_tokens,
      b.numbersFit_tokens]
  | .forRangeStmt i s e b => by
    rw [StatementContext.tokens, StatementContext.exprs, List.forall_mem_append,
      List.forall_mem_append, List.forall_mem_append, numbersFit_cons (by simp),
      numbersFit_cons (by simp), numbersFit_append, numbersFit_cons (by simp), numbersFit_append,
      numbersFit_cons (by simp), numbersFit_append, numbersFit_cons (by simp),
      i.numbersFit_tokens, s.numbersFit_tokens, e.numbersFit_tokens, b.numbersFit_tokens]
  | .forInStmt i a b => by
    rw [StatementContext.tokens, StatementContext.exprs, List.forall_mem_append,
      List.forall_mem_append, numbersFit_cons (by simp), numbersFit_cons (by simp),
      numbersFit_append, numbersFit_cons (by simp), numbersFit_append, numbersFit_cons (by simp),
      i.numbersFit_tokens, a.numbersFit_tokens, b.numbersFit_tokens]
  | .ifElseStmt c t f => by
    rw [StatementContext.tokens, StatementContext.exprs, List.forall_mem_append,
      List.forall_mem_append, numbersFit_cons (by simp), numbersFit_cons (by simp),
      numbersFit_append, numbersFit_cons (by simp), numbersFit_append, numbersFit_cons (by simp),
      c.numbersFit_tokens, t.numbersFit_tokens, f.numbersFit_tokens]
  | .outputStmt a | .errorStmt a => by
    rw [StatementContext.tokens, StatementContext.exprs, numbersFit_cons (by simp),
      numbersFit_append, numbersFit_cons (by simp), and_iff_left numbersFit_nil,
      a.numbersFit_tokens]

theorem numbersFit_tokensStmts : ∀ ss : List StatementContext,
    NumbersFit (StatementContext.tokensList ss) ↔
      ∀ d ∈ StatementContext.exprsList ss, d.LiteralFits
  | [] => iff_of_true numbersFit_nil (List.forall_mem_nil _)
  | s :: ss => by
    rw [StatementContext.tokensList, StatementContext.exprsList, numbersFit_append,
      List.forall_mem_append, s.numbersFit_tokens, numbersFit_tokensStmts ss]

end

theorem numbersFit_nameTokens (xs : List Identifier) : NumbersFit (nameTokens xs) := by
  refine (numbersFit_commas _).2 fun ts hts ↦ ?_
  obtain ⟨x, -, rfl⟩ := List.mem_map.1 hts
  exact (numbersFit_cons (by simp)).2 numbersFit_nil

theorem DeclarationContext.numbersFit_tokens (d : DeclarationContext) : NumbersFit d.tokens := by
  rw [DeclarationContext.tokens, numbersFit_cons (by simp), numbersFit_append,
    numbersFit_cons (by simp)]
  exact ⟨numbersFit_nameTokens _, numbersFit_nil⟩

theorem FunctionContext.numbersFit_tokens (f : FunctionContext) :
    NumbersFit f.tokens ↔ ∀ d ∈ f.exprs, d.LiteralFits := by
  have hhead : NumbersFit f.headTokens := by
    rw [FunctionContext.headTokens, numbersFit_cons (by simp), numbersFit_cons (by simp),
      numbersFit_append, numbersFit_cons (by simp)]
    refine ⟨numbersFit_nameTokens _, ?_⟩
    split
    · exact (numbersFit_cons (by simp)).2 numbersFit_nil
    · exact numbersFit_nil
  have hdecls : NumbersFit (f.declarations.flatMap DeclarationContext.tokens) := by
    induction f.declarations with
    | nil => exact numbersFit_nil
    | cons d ds ih => exact numbersFit_append.2 ⟨d.numbersFit_tokens, ih⟩
  rw [FunctionContext.tokens, FunctionContext.exprs, numbersFit_append, and_iff_right hhead,
    numbersFit_cons (by simp), numbersFit_append, numbersFit_cons (by simp),
    and_iff_left numbersFit_nil, FunctionContext.bodyTokens, numbersFit_append,
    and_iff_right hdecls, numbersFit_append, numbersFit_cons (by simp), numbersFit_append,
    numbersFit_cons (by simp), and_iff_left numbersFit_nil, List.forall_mem_append,
    numbersFit_tokensStmts, f.returned.numbersFit_tokens]

/-- The literals of a program are the numbers among its tokens. -/
theorem ProgramContext.numbersFit_tokens (t : ProgramContext) :
    NumbersFit t.tokens ↔ ∀ c ∈ t.exprs, c.LiteralFits := by
  rw [ProgramContext.tokens, ProgramContext.exprs]
  induction t.functions with
  | nil => exact iff_of_true numbersFit_nil (List.forall_mem_nil _)
  | cons f fs ih =>
    rw [List.flatMap_cons, List.flatMap_cons, numbersFit_append, List.forall_mem_append,
      f.numbersFit_tokens, ih]

/-! ### The parser -/

/-- The tokens up to the end of the text or to the first place where no rule of the lexer matches, and
whether the end is reached. -/
def tokensFrom : ℕ → List Char → List Token × Bool
  | _, [] => ([], true)
  | 0, _ :: _ => ([], false)
  | n + 1, c :: cs =>
    match nextLexeme (c :: cs) with
    | none => ([], false)
    | some (t, rest) => (t.toList ++ (tokensFrom n rest).1, (tokensFrom n rest).2)

/-- The tokens the parser can ask for. -/
def tokenStream (text : String) : List Token × Bool :=
  tokensFrom text.toList.length text.toList

theorem lexFrom_eq_some_iff {ts : List Token} : ∀ {n : ℕ} {cs : List Char},
    lexFrom n cs = some ts ↔ tokensFrom n cs = (ts, true) := by
  intro n
  induction n generalizing ts with
  | zero =>
    intro cs
    cases cs with
    | nil => simp [lexFrom, tokensFrom]
    | cons c cs => simp [lexFrom, tokensFrom]
  | succ n ih =>
    intro cs
    cases cs with
    | nil => simp [lexFrom, tokensFrom]
    | cons c cs =>
      rw [lexFrom, tokensFrom]
      cases nextLexeme (c :: cs) with
      | none => simp
      | some next =>
        obtain ⟨t, rest⟩ := next
        rw [Option.bind_eq_bind, Option.bind_some]
        dsimp only
        rw [Prod.mk.injEq]
        constructor
        · intro h
          obtain ⟨us, hus, heq⟩ := Option.bind_eq_some_iff.1 h
          cases heq
          rw [ih.1 hus]
          exact ⟨rfl, rfl⟩
        · rintro ⟨rfl, hended⟩
          rw [ih.2 (Prod.ext rfl hended)]
          rfl

theorem tokenise_eq_some_iff {text : String} {ts : List Token} :
    tokenise text = some ts ↔ tokenStream text = (ts, true) :=
  lexFrom_eq_some_iff

/-- The method that is generated for the rule `function`: it matches where the tokens begin with a
function, and what it matches is one. -/
structure GeneratedFunction (function : List Token → Option (FunctionContext × List Token)) :
    Prop where
  sound : ∀ {ts f rest}, function ts = some (f, rest) → f.tokens ++ rest = ts
  complete : ∀ (f : FunctionContext) rest, function (f.tokens ++ rest) ≠ none

namespace FrontEnd

variable (function : List Token → Option (FunctionContext × List Token))

/-- The method that is generated for the rule `program`. After each function the next token is looked
at: the loop goes on where a function begins with it. Where there is neither a token nor the end of the
text, the lexer reports an error. -/
def programRule (ended : Bool) : ℕ → List Token → Option ProgramContext
  | 0, _ => none
  | n + 1, ts =>
    match function ts with
    | none => none
    | some (f, .identifier x :: rest) =>
      (programRule ended n (.identifier x :: rest)).map fun p ↦ ⟨f, p.functions⟩
    | some (f, []) => if ended then some ⟨f, []⟩ else none
    | some (f, _ :: _) => some ⟨f, []⟩

/-- What `parse` throws. -/
inductive ParseFailure
  | parseError
  | build (e : Option BuildError)

/-- `FrontEnd::parse`. -/
def parse (text : String) : Except ParseFailure ASTProgram :=
  match programRule function (tokenStream text).2 ((tokenStream text).1.length + 1)
      (tokenStream text).1 with
  | none => .error .parseError
  | some tree =>
    match (ASTBuilder.build tree .initial).ending with
    | .value program => .ok program
    | .failure e => .error (.build e)
    | .timeout => .error (.build none)

/-- The text is in the language of the grammar: its tokens, up to the end, are those of the tree. -/
def Derives (text : String) (t : ProgramContext) : Prop :=
  tokenise text = some t.tokens

/-- `parse` accepts exactly the language: it returns an AST where the text is derivable, with one
function for each one in the text, and otherwise it throws a `ParseError`. -/
structure AcceptsExactly (text : String) : Prop where
  accepted : ∀ program, parse function text = .ok program →
    ∃ t, Derives text t ∧ program.functions.length = t.functions.length
  derivable : ∀ t, Derives text t → ∃ program, parse function text = .ok program
  rejected : (¬ ∃ t, Derives text t) → parse function text = .error .parseError

/-- Behind a program there is a token that no function begins with. -/
def TrailingToken (text : String) : Prop :=
  ∃ (t : ProgramContext) (x : Token) (rest : List Token),
    (tokenStream text).1 = t.tokens ++ x :: rest ∧ ∀ y, x ≠ .identifier y

variable {function : List Token → Option (FunctionContext × List Token)} {text : String}

/-- Where the loop ends: at a token that no function begins with, or at the end of the text. -/
def Stops (ended : Bool) (rest : List Token) : Prop :=
  (rest = [] → ended = true) ∧ ∀ x, rest.head? = some x → ∀ y, x ≠ .identifier y

theorem stops_nil {ended : Bool} (h : ended = true) : Stops ended [] :=
  ⟨fun _ ↦ h, fun x hx ↦ by cases hx⟩

theorem stops_cons {ended : Bool} {x : Token} {rest : List Token} (h : ∀ y, x ≠ .identifier y) :
    Stops ended (x :: rest) :=
  ⟨fun hnil ↦ (by cases hnil), fun z hz y hy ↦ h y ((Option.some.inj hz).trans hy)⟩

theorem tokens_single (f : FunctionContext) : (ProgramContext.mk f []).tokens = f.tokens :=
  List.append_nil _

theorem tokens_more (f : FunctionContext) (p : ProgramContext) :
    (ProgramContext.mk f p.functions).tokens = f.tokens ++ p.tokens :=
  rfl

/-- The loop matches a program, and then stops. -/
theorem programRule_sound (hfunction : GeneratedFunction function) {ended : Bool} :
    ∀ {n : ℕ} {ts : List Token} {t : ProgramContext}, programRule function ended n ts = some t →
      ∃ rest, ts = t.tokens ++ rest ∧ Stops ended rest
  | 0, _, _, h => by cases h
  | n + 1, ts, t, h => by
    rw [programRule] at h
    split at h
    · cases h
    · rename_i f x rest hf
      obtain ⟨p, hp, rfl⟩ := Option.map_eq_some_iff.1 h
      obtain ⟨rest', hrest', hstops⟩ := programRule_sound hfunction hp
      refine ⟨rest', ?_, hstops⟩
      rw [← hfunction.sound hf, hrest', tokens_more, List.append_assoc]
    · rename_i f hf
      split at h
      · rename_i hended
        cases h
        refine ⟨[], ?_, stops_nil hended⟩
        rw [← hfunction.sound hf, tokens_single]
      · cases h
    · rename_i f x rest hx hf
      cases h
      refine ⟨x :: rest, ?_, stops_cons hx⟩
      rw [← hfunction.sound hf, tokens_single]

/-- A program before which the loop stops is matched. -/
theorem programRule_complete (hfunction : GeneratedFunction function) {ended : Bool}
    {rest : List Token} (hstops : Stops ended rest) :
    ∀ (more : List FunctionContext) (f : FunctionContext) {n : ℕ},
      (((ProgramContext.mk f more).tokens ++ rest).length < n) →
      ∃ t, programRule function ended n ((ProgramContext.mk f more).tokens ++ rest) = some t ∧
        t.tokens = (ProgramContext.mk f more).tokens ∧
        t.functions.length = more.length + 1 := by
  intro more
  induction more with
  | nil =>
    intro f n hn
    cases n with
    | zero => exact absurd hn (Nat.not_lt_zero _)
    | succ n =>
      rw [tokens_single, programRule]
      cases hf : function (f.tokens ++ rest) with
      | none => exact absurd hf (hfunction.complete f rest)
      | some result =>
        obtain ⟨g, rest'⟩ := result
        have hsound := hfunction.sound hf
        obtain rfl := FunctionContext.append_inj hsound
        have htokens : g.tokens = f.tokens := List.append_cancel_right hsound
        cases rest' with
        | nil =>
          dsimp only
          rw [if_pos (hstops.1 rfl)]
          exact ⟨_, rfl, (tokens_single g).trans htokens, rfl⟩
        | cons x rest' =>
          have hx := hstops.2 x rfl
          cases x with
          | identifier y => exact absurd rfl (hx y)
          | _ => exact ⟨_, rfl, (tokens_single g).trans htokens, rfl⟩
  | cons g more ih =>
    intro f n hn
    cases n with
    | zero => exact absurd hn (Nat.not_lt_zero _)
    | succ n =>
      have hsplit : (ProgramContext.mk f (g :: more)).tokens ++ rest =
          f.tokens ++ ((ProgramContext.mk g more).tokens ++ rest) := List.append_assoc _ _ _
      rw [hsplit] at hn ⊢
      rw [programRule]
      cases hf : function (f.tokens ++ ((ProgramContext.mk g more).tokens ++ rest)) with
      | none => exact absurd hf (hfunction.complete f _)
      | some result =>
        obtain ⟨f', rest'⟩ := result
        have hsound := hfunction.sound hf
        obtain rfl := FunctionContext.append_inj hsound
        have htokens : f'.tokens = f.tokens := List.append_cancel_right hsound
        obtain ⟨t, ht, htokens', hlen⟩ := ih g (n := n) (by
          have hpos : 0 < f.tokens.length := Nat.succ_pos _
          rw [List.length_append] at hn
          omega)
        refine ⟨⟨f', t.functions⟩, ?_, ?_, ?_⟩
        · change (programRule function ended n ((ProgramContext.mk g more).tokens ++ rest)).map
            (fun p ↦ ProgramContext.mk f' p.functions) = _
          rw [ht]
          rfl
        · rw [tokens_more, htokens, htokens']
          rfl
        · change (f' :: t.functions).length = _
          rw [List.length_cons, hlen, List.length_cons]

/-- What the parser makes of a text that begins with a program. -/
theorem exists_programRule (hfunction : GeneratedFunction function) {t : ProgramContext}
    {rest : List Token} (hstops : Stops (tokenStream text).2 rest)
    (htokens : (tokenStream text).1 = t.tokens ++ rest) :
    ∃ t', programRule function (tokenStream text).2 ((tokenStream text).1.length + 1)
        (tokenStream text).1 = some t' ∧ t'.tokens = t.tokens ∧
      t'.functions.length = t.functions.length := by
  rw [htokens]
  exact programRule_complete hfunction hstops t.more t.first (Nat.lt_succ_self _)

/-! ### When the front end accepts exactly the language -/

/-- The builder returns where the numbers fit. -/
theorem exists_build {t : ProgramContext} (h : NumbersFit t.tokens) :
    ∃ program, (ASTBuilder.build t .initial).ending = .value program := by
  obtain ⟨program, s', hr⟩ :=
    (ASTBuilder.builds_build t .initial).returns (t.numbersFit_tokens.1 h)
  exact ⟨program, hr.1⟩

theorem build_returns {t : ProgramContext} {program : ASTProgram}
    (h : (ASTBuilder.build t .initial).ending = .value program) :
    NumbersFit t.tokens ∧ program.functions.length = t.functions.length := by
  have hr : Run.Returns (ASTBuilder.build t) .initial program (ASTBuilder.build t .initial).state :=
    ⟨h, rfl⟩
  refine ⟨t.numbersFit_tokens.2 ((ASTBuilder.builds_build t .initial).fit _ _ hr), ?_⟩
  unfold ASTBuilder.build at hr
  obtain ⟨fs, s₁, hfs, hr⟩ := Run.returns_bind.1 hr
  split at hr
  · obtain ⟨rfl, -⟩ := Run.returns_pure.1 hr
    exact Run.length_of_mapM hfs
  · exact absurd hr Run.not_returns_fail

theorem parse_of_programRule {t : ProgramContext} (h : programRule function (tokenStream text).2
      ((tokenStream text).1.length + 1) (tokenStream text).1 = some t) :
    parse function text ≠ .error .parseError ∧
      ∀ program, parse function text = .ok program ↔
        (ASTBuilder.build t .initial).ending = .value program := by
  rw [parse, h]
  dsimp only
  cases hbuild : (ASTBuilder.build t .initial).ending with
  | value a => exact ⟨fun h ↦ (by cases h), fun program ↦ by simp⟩
  | failure e => exact ⟨fun h ↦ (by cases h), fun program ↦ by simp⟩
  | timeout => exact ⟨fun h ↦ (by cases h), fun program ↦ by simp⟩

/-- What the front end needs of a text to do what the grammar says: no program with a token behind it
that no function begins with, and if it is derivable, numbers that fit. -/
structure Clean (text : String) : Prop where
  noTrailing : ¬ TrailingToken text
  numbersFit : ∀ t, Derives text t → NumbersFit t.tokens

theorem tokenStream_of_derives {t : ProgramContext} (h : Derives text t) :
    (tokenStream text).2 = true ∧ (tokenStream text).1 = t.tokens ++ [] := by
  rw [tokenise_eq_some_iff.1 h, List.append_nil]
  exact ⟨rfl, rfl⟩

theorem exists_programRule_of_derives (hfunction : GeneratedFunction function) {t : ProgramContext}
    (h : Derives text t) :
    ∃ t', programRule function (tokenStream text).2 ((tokenStream text).1.length + 1)
        (tokenStream text).1 = some t' ∧ t'.tokens = t.tokens ∧
      t'.functions.length = t.functions.length :=
  exists_programRule hfunction (stops_nil (tokenStream_of_derives h).1)
    (tokenStream_of_derives h).2

/-- A text with a trailing token is not derivable. -/
theorem TrailingToken.not_derives (hfunction : GeneratedFunction function)
    (h : TrailingToken text) (t : ProgramContext) : ¬ Derives text t := by
  obtain ⟨u, x, rest, htokens, hx⟩ := h
  intro ht
  obtain ⟨t₁, ht₁, htokens₁, -⟩ := exists_programRule_of_derives hfunction ht
  obtain ⟨t₂, ht₂, htokens₂, -⟩ := exists_programRule hfunction (stops_cons hx) htokens
  obtain rfl := Option.some.inj (ht₁.symm.trans ht₂)
  rw [← htokens₂, htokens₁, (tokenStream_of_derives ht).2] at htokens
  cases List.append_cancel_left htokens

theorem Clean.acceptsExactly (hfunction : GeneratedFunction function) (h : Clean text) :
    AcceptsExactly function text := by
  have hderives : ∀ t, programRule function (tokenStream text).2
      ((tokenStream text).1.length + 1) (tokenStream text).1 = some t → Derives text t := by
    intro t ht
    obtain ⟨rest, hrest, hstops⟩ := programRule_sound hfunction ht
    cases rest with
    | nil =>
      rw [List.append_nil] at hrest
      exact tokenise_eq_some_iff.2 (Prod.ext hrest (hstops.1 rfl))
    | cons x rest => exact absurd ⟨t, x, rest, hrest, hstops.2 x rfl⟩ h.noTrailing
  refine ⟨fun program hp ↦ ?_, fun t ht ↦ ?_, fun hnot ↦ ?_⟩
  · cases hrule : programRule function (tokenStream text).2
        ((tokenStream text).1.length + 1) (tokenStream text).1 with
    | none =>
      rw [parse, hrule] at hp
      cases hp
    | some t =>
      exact ⟨t, hderives t hrule, (build_returns (((parse_of_programRule hrule).2 program).1 hp)).2⟩
  · obtain ⟨t', hrule, htokens, -⟩ := exists_programRule_of_derives hfunction ht
    obtain ⟨program, hprogram⟩ := exists_build (htokens ▸ h.numbersFit t ht)
    exact ⟨program, ((parse_of_programRule hrule).2 program).2 hprogram⟩
  · cases hrule : programRule function (tokenStream text).2
        ((tokenStream text).1.length + 1) (tokenStream text).1 with
    | none => rw [parse, hrule]
    | some t => exact absurd ⟨t, hderives t hrule⟩ hnot

theorem AcceptsExactly.clean (hfunction : GeneratedFunction function)
    (h : AcceptsExactly function text) : Clean text := by
  constructor
  · intro htrailing
    have hrejected := h.rejected fun ⟨t, ht⟩ ↦ htrailing.not_derives hfunction t ht
    obtain ⟨t, x, rest, htokens, hx⟩ := htrailing
    obtain ⟨t', hrule, -⟩ := exists_programRule hfunction (stops_cons hx) htokens
    exact (parse_of_programRule hrule).1 hrejected
  · intro t ht
    obtain ⟨t', hrule, htokens, -⟩ := exists_programRule_of_derives hfunction ht
    obtain ⟨program, hprogram⟩ := h.derivable t ht
    rw [← htokens]
    exact (build_returns (((parse_of_programRule hrule).2 program).1 hprogram)).1

/-- The front end accepts exactly the language where a text has no trailing token and no number that
does not fit. -/
theorem acceptsExactly_iff (hfunction : GeneratedFunction function) (text : String) :
    AcceptsExactly function text ↔ Clean text :=
  ⟨AcceptsExactly.clean hfunction, Clean.acceptsExactly hfunction⟩

open Classical in
/-- A method that matches one of the functions the tokens begin with. -/
noncomputable def chosenFunction (ts : List Token) : Option (FunctionContext × List Token) :=
  if h : ∃ p : FunctionContext × List Token, p.1.tokens ++ p.2 = ts then some h.choose else none

theorem generatedFunction_chosenFunction : GeneratedFunction chosenFunction where
  sound := by
    intro ts f rest h
    unfold chosenFunction at h
    split at h
    · rename_i hex
      have hspec := hex.choose_spec
      rw [Option.some.inj h] at hspec
      exact hspec
    · cases h
  complete := by
    intro f rest h
    unfold chosenFunction at h
    rw [dif_pos ⟨(f, rest), rfl⟩] at h
    cases h

/-- `main() { return 0; }`. -/
def returnZero : ProgramContext where
  first :=
    { name := ⟨"main", isIdentifier_main⟩
      formals := []
      poly := false
      declarations := []
      statements := []
      returned := .numExpr (.ofNat 0) }
  more := []

theorem derives_returnZero : Derives "main()\x7breturn 0;\x7d" returnZero := by
  unfold Derives
  decide +kernel

theorem acceptsExactly_returnZero :
    AcceptsExactly chosenFunction "main()\x7breturn 0;\x7d" := by
  refine (acceptsExactly_iff generatedFunction_chosenFunction _).2 ⟨fun h ↦ ?_, fun t ht ↦ ?_⟩
  · exact h.not_derives generatedFunction_chosenFunction returnZero derives_returnZero
  · rw [← Option.some.inj (derives_returnZero.symm.trans ht), returnZero.numbersFit_tokens]
    exact List.forall_mem_singleton.2 (by decide +kernel : (Numeral.ofNat 0).value < 2 ^ 31)

/-- A brace too many is not seen. -/
theorem not_acceptsExactly_rbrace :
    ¬ AcceptsExactly chosenFunction "main()\x7breturn 0;\x7d\x7d" := by
  intro h
  refine (h.clean generatedFunction_chosenFunction).noTrailing ⟨returnZero, .rbrace, [], ?_, ?_⟩
  · decide +kernel
  · simp

end FrontEnd

end Sipc
