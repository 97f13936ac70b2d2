import Sipc.Frontend.ExprParserCorrectness

/-!
# The precedence of C

`README.md` promises the operator precedence of C. The expressions over the operators that the two
languages share are given here by the productions of C (`CExpr.Derives`), and the rule `expr` reads the
tokens of such an expression as C does exactly where the levels of the two grammars cannot be told apart
(`CExpr.reads_iff`): indexing is looser than `*`, a minus takes a number before any suffix of it, and
`?:` groups to the left.
-/

set_option autoImplicit false
set_option relaxedAutoImplicit false

namespace Sipc

/-- An expression of C over the operators that the languages share. -/
inductive CExpr
  | identifier (name : Identifier)
  | constant (number : Numeral)
  | paren (expr : CExpr)
  | call (function : CExpr) (arguments : List CExpr)
  | member (record : CExpr) (field : Identifier)
  | subscript (arr idx : CExpr)
  | indirection (ptr : CExpr)
  | address (var : CExpr)
  | minus (arg : CExpr)
  | multiplicative (op : OneOf [.mul, .div, .mod]) (left right : CExpr)
  | additive (op : OneOf [.add, .sub]) (left right : CExpr)
  | relational (op : OneOf [.gt, .lte, .gte, .lt]) (left right : CExpr)
  | equality (op : OneOf [.eq, .ne]) (left right : CExpr)
  | conditional (condition thenExpr elseExpr : CExpr)

/-- The nonterminals of C that have an operator of their own here. -/
inductive CNonterminal
  | primary | postfixExpr | unary | multiplicative | additive | relational | equality | conditional

namespace CExpr

/-- The productions of C: `expression` is `conditional`, and a nonterminal between two of these derives
what the lower one does. -/
inductive Derives : CNonterminal → CExpr → Prop
  | identifier (x : Identifier) : Derives .primary (.identifier x)
  | constant (n : Numeral) : Derives .primary (.constant n)
  | paren {e : CExpr} : Derives .conditional e → Derives .primary (.paren e)
  | ofPrimary {e : CExpr} : Derives .primary e → Derives .postfixExpr e
  | call {f : CExpr} {as : List CExpr} :
    Derives .postfixExpr f → (∀ a ∈ as, Derives .conditional a) → Derives .postfixExpr (.call f as)
  | member {e : CExpr} (x : Identifier) : Derives .postfixExpr e → Derives .postfixExpr (.member e x)
  | subscript {e i : CExpr} :
    Derives .postfixExpr e → Derives .conditional i → Derives .postfixExpr (.subscript e i)
  | ofPostfix {e : CExpr} : Derives .postfixExpr e → Derives .unary e
  | indirection {e : CExpr} : Derives .unary e → Derives .unary (.indirection e)
  | address {e : CExpr} : Derives .unary e → Derives .unary (.address e)
  | minus {e : CExpr} : Derives .unary e → Derives .unary (.minus e)
  | ofUnary {e : CExpr} : Derives .unary e → Derives .multiplicative e
  | multiplicative (op : OneOf [.mul, .div, .mod]) {l r : CExpr} :
    Derives .multiplicative l → Derives .unary r → Derives .multiplicative (.multiplicative op l r)
  | ofMultiplicative {e : CExpr} : Derives .multiplicative e → Derives .additive e
  | additive (op : OneOf [.add, .sub]) {l r : CExpr} :
    Derives .additive l → Derives .multiplicative r → Derives .additive (.additive op l r)
  | ofAdditive {e : CExpr} : Derives .additive e → Derives .relational e
  | relational (op : OneOf [.gt, .lte, .gte, .lt]) {l r : CExpr} :
    Derives .relational l → Derives .additive r → Derives .relational (.relational op l r)
  | ofRelational {e : CExpr} : Derives .relational e → Derives .equality e
  | equality (op : OneOf [.eq, .ne]) {l r : CExpr} :
    Derives .equality l → Derives .relational r → Derives .equality (.equality op l r)
  | ofEquality {e : CExpr} : Derives .equality e → Derives .conditional e
  | conditional {c t e : CExpr} :
    Derives .equality c → Derives .conditional t → Derives .conditional e →
      Derives .conditional (.conditional c t e)

mutual

/-- The tokens of an expression. -/
def tokens : CExpr → List Token
  | .identifier x => [.identifier x]
  | .constant n => [.number n]
  | .paren e => .lparen :: e.tokens ++ [.rparen]
  | .call f as => f.tokens ++ .lparen :: commas (tokensList as) ++ [.rparen]
  | .member e x => e.tokens ++ [.dot, .identifier x]
  | .subscript e i => e.tokens ++ .lbracket :: i.tokens ++ [.rbracket]
  | .indirection e => .mul :: e.tokens
  | .address e => .land :: e.tokens
  | .minus e => .sub :: e.tokens
  | .multiplicative op l r | .additive op l r | .relational op l r | .equality op l r =>
    l.tokens ++ op.1 :: r.tokens
  | .conditional c t e => c.tokens ++ .question :: t.tokens ++ .colon :: e.tokens

def tokensList : List CExpr → List (List Token)
  | [] => []
  | e :: es => e.tokens :: tokensList es

end

mutual

/-- The same tree in the alternatives of `expr`; a minus and a number are an alternative of their own. -/
def context : CExpr → ExprContext
  | .identifier x => .varExpr x
  | .constant n => .numExpr n
  | .paren e => .parenExpr e.context
  | .call f as => .funAppExpr f.context (contextList as)
  | .member e x => .accessExpr e.context x
  | .subscript e i => .arrayIndexingExpr e.context i.context
  | .indirection e => .deRefExpr e.context
  | .address e => .refExpr e.context
  | .minus (.constant n) => .negNumber n
  | .minus e => .negExpr e.context
  | .multiplicative op l r => .multiplicativeExpr op l.context r.context
  | .additive op l r => .additiveExpr op l.context r.context
  | .relational op l r => .relationalExpr op l.context r.context
  | .equality op l r => .equalityExpr op l.context r.context
  | .conditional c t e => .ternaryExpr c.context t.context e.context

def contextList : List CExpr → List ExprContext
  | [] => []
  | e :: es => e.context :: contextList es

end

/-- The suffixes of the expression include an index. -/
def Subscripted : CExpr → Prop
  | .subscript _ _ => True
  | .call f _ => f.Subscripted
  | .member e _ => e.Subscripted
  | _ => False

/-- The expression is a number, with suffixes or without. -/
def LeadsWithConstant : CExpr → Prop
  | .constant _ => True
  | .call f _ => f.LeadsWithConstant
  | .member e _ => e.LeadsWithConstant
  | .subscript e _ => e.LeadsWithConstant
  | _ => False

def IsConstant : CExpr → Prop
  | .constant _ => True
  | _ => False

def IsConditional : CExpr → Prop
  | .conditional _ _ _ => True
  | _ => False

mutual

/-- No `*` has an indexed operand, no minus a number with suffixes and no `?:` a bare `?:` after its
colon. -/
def ReadsAlike : CExpr → Prop
  | .identifier _ => True
  | .constant _ => True
  | .paren e => e.ReadsAlike
  | .call f as => f.ReadsAlike ∧ ReadsAlikeList as
  | .member e _ => e.ReadsAlike
  | .subscript e i => e.ReadsAlike ∧ i.ReadsAlike
  | .indirection e => ¬ e.Subscripted ∧ e.ReadsAlike
  | .address e => e.ReadsAlike
  | .minus e => (e.LeadsWithConstant → e.IsConstant) ∧ e.ReadsAlike
  | .multiplicative _ l r | .additive _ l r | .relational _ l r | .equality _ l r =>
    l.ReadsAlike ∧ r.ReadsAlike
  | .conditional c t e => ¬ e.IsConditional ∧ c.ReadsAlike ∧ t.ReadsAlike ∧ e.ReadsAlike

def ReadsAlikeList : List CExpr → Prop
  | [] => True
  | e :: es => e.ReadsAlike ∧ ReadsAlikeList es

end

/-! ### The tree in the alternatives of `expr` -/

theorem context_minus {e : CExpr} (h : ¬ e.IsConstant) : (minus e).context = .negExpr e.context := by
  cases e with
  | constant n => exact absurd trivial h
  | _ => rfl

mutual

/-- The yield of the tree is the same. -/
theorem tokens_context : ∀ e : CExpr, e.context.tokens = e.tokens
  | .identifier _ | .constant _ => rfl
  | .paren e => by
    rw [context, ExprContext.tokens, tokens, tokens_context e]
  | .call f as => by
    rw [context, ExprContext.tokens, tokens, tokens_context f, tokensList_context as]
  | .member e _ => by
    rw [context, ExprContext.tokens, tokens, tokens_context e]
  | .subscript e i => by
    rw [context, ExprContext.tokens, tokens, tokens_context e, tokens_context i]
  | .indirection e => by
    rw [context, ExprContext.tokens, tokens, tokens_context e]
  | .address e => by
    rw [context, ExprContext.tokens, tokens, tokens_context e]
  | .minus e => by
    have ih := tokens_context e
    by_cases h : e.IsConstant
    · cases e with
      | constant n => rfl
      | _ => exact absurd h id
    · rw [context_minus h, ExprContext.tokens, tokens, ih]
  | .multiplicative _ l r | .additive _ l r | .relational _ l r | .equality _ l r => by
    rw [context, ExprContext.tokens, tokens, tokens_context l, tokens_context r]
  | .conditional c t e => by
    rw [context, ExprContext.tokens, tokens, tokens_context c, tokens_context t, tokens_context e]

theorem tokensList_context :
    ∀ es : List CExpr, ExprContext.tokensList (contextList es) = tokensList es
  | [] => rfl
  | e :: es => by
    rw [contextList, ExprContext.tokensList, tokensList, tokens_context e, tokensList_context es]

end

end CExpr

/-! ### The levels of the productions -/

/-- The operators at the left edge of what the nonterminal derives have at least this level. -/
def CNonterminal.loopLevel : CNonterminal → ℕ
  | .primary => 27
  | .postfixExpr | .unary => 23
  | .multiplicative => 17
  | .additive => 16
  | .relational => 15
  | .equality => 14
  | .conditional => 13

/-- The loops that are open at the right edge of what the nonterminal derives have at least this
level. -/
def CNonterminal.openLevel : CNonterminal → ℕ
  | .primary | .postfixExpr => 27
  | .unary => 20
  | .multiplicative => 18
  | .additive => 17
  | .relational => 16
  | .equality => 15
  | .conditional => 14

namespace CExpr

theorem loopLevel_minus (e : CExpr) : (minus e).context.loopLevel = 27 := by
  by_cases hc : e.IsConstant
  · cases e with
    | constant n => rfl
    | _ => exact absurd hc id
  · rw [context_minus hc]
    rfl

theorem le_openLevel_minus {e : CExpr} (h : 20 ≤ e.context.openLevel) :
    20 ≤ (minus e).context.openLevel := by
  by_cases hc : e.IsConstant
  · cases e with
    | constant n => exact Nat.le_of_ble_eq_true rfl
    | _ => exact absurd hc id
  · rw [context_minus hc, ExprContext.openLevel]
    omega

theorem Derives.levels {k : CNonterminal} {e : CExpr} (h : Derives k e) :
    k.loopLevel ≤ e.context.loopLevel ∧ k.openLevel ≤ e.context.openLevel := by
  induction h with
  | identifier | constant | paren => exact ⟨le_rfl, le_rfl⟩
  | ofPrimary | ofPostfix | ofUnary | ofMultiplicative | ofAdditive | ofRelational | ofEquality =>
    simp only [CNonterminal.loopLevel, CNonterminal.openLevel] at *
    omega
  | call | member | subscript =>
    simp only [CNonterminal.loopLevel, CNonterminal.openLevel, context, ExprContext.loopLevel,
      ExprContext.openLevel] at *
    omega
  | indirection _ ih | address _ ih =>
    refine ⟨(show 23 ≤ 27 by decide), ?_⟩
    simp only [CNonterminal.openLevel, context, ExprContext.openLevel] at *
    omega
  | minus _ ih =>
    rw [loopLevel_minus]
    exact ⟨(show 23 ≤ 27 by decide), le_openLevel_minus ih.2⟩
  | multiplicative | additive | relational | equality | conditional =>
    simp only [CNonterminal.loopLevel, CNonterminal.openLevel, context, ExprContext.loopLevel,
      ExprContext.openLevel] at *
    omega

/-- The operand of a `*` keeps all its suffixes where none of them is an index. -/
theorem Derives.le_loopLevel_iff {k : CNonterminal} {e : CExpr} (h : Derives k e)
    (hk : 20 ≤ k.openLevel) : 24 ≤ e.context.loopLevel ↔ ¬ e.Subscripted := by
  induction h with
  | identifier | constant | paren | indirection | address =>
    exact iff_of_true (show 24 ≤ 27 by decide) id
  | minus =>
    rw [loopLevel_minus]
    exact iff_of_true (show 24 ≤ 27 by decide) id
  | ofPrimary _ ih | ofPostfix _ ih => exact ih (by decide)
  | call _ _ ih | member _ _ ih =>
    rw [context, ExprContext.loopLevel, Subscripted, ← ih (by decide)]
    omega
  | subscript =>
    refine iff_of_false ?_ fun hs ↦ hs trivial
    rw [context, ExprContext.loopLevel]
    omega
  | ofUnary | multiplicative | ofMultiplicative | additive | ofAdditive | relational | ofRelational
  | equality | ofEquality | conditional => exact absurd hk (by decide)

theorem Derives.leadsWithNumber_iff {k : CNonterminal} {e : CExpr} (h : Derives k e)
    (hk : 20 ≤ k.openLevel) : e.context.leadsWithNumber ↔ e.LeadsWithConstant := by
  induction h with
  | identifier | constant | paren | indirection | address => exact Iff.rfl
  | @minus e =>
    refine iff_of_false ?_ id
    by_cases hc : e.IsConstant
    · cases e with
      | constant n => exact id
      | _ => exact absurd hc id
    · rw [context_minus hc]
      exact id
  | ofPrimary _ ih | ofPostfix _ ih => exact ih (by decide)
  | call _ _ ih | member _ _ ih | subscript _ _ ih => exact ih (by decide)
  | ofUnary | multiplicative | ofMultiplicative | additive | ofAdditive | relational | ofRelational
  | equality | ofEquality | conditional => exact absurd hk (by decide)

theorem Derives.not_isConditional {k : CNonterminal} {e : CExpr} (h : Derives k e)
    (hk : 15 ≤ k.openLevel) : ¬ e.IsConditional := by
  induction h with
  | conditional | ofEquality => exact absurd hk (by decide)
  | ofPrimary _ ih | ofPostfix _ ih | ofUnary _ ih | ofMultiplicative _ ih | ofAdditive _ ih
  | ofRelational _ ih => exact ih (by decide)
  | _ => exact id

/-- What follows the colon goes on over its own `?:` only where there is none. -/
theorem Derives.lt_loopLevel_iff {e : CExpr} (h : Derives .conditional e) :
    13 < e.context.loopLevel ↔ ¬ e.IsConditional := by
  cases h with
  | ofEquality h' =>
    exact iff_of_true h'.levels.1 (h'.not_isConditional (by decide))
  | conditional =>
    refine iff_of_false ?_ fun hc ↦ hc trivial
    rw [context, ExprContext.loopLevel]
    omega

theorem respectsList_iff {es : List CExpr}
    (h : ∀ e ∈ es, (e.context.Respects ↔ e.ReadsAlike)) :
    ExprContext.RespectsList (contextList es) ↔ ReadsAlikeList es := by
  induction es with
  | nil => exact Iff.rfl
  | cons e es ih =>
    rw [contextList, ExprContext.RespectsList, ReadsAlikeList, h e List.mem_cons_self,
      ih fun a ha ↦ h a (List.mem_cons_of_mem e ha)]

/-- The tree respects the levels of `expr`. -/
theorem Derives.respects_iff {k : CNonterminal} {e : CExpr} (h : Derives k e) :
    e.context.Respects ↔ e.ReadsAlike := by
  induction h with
  | identifier | constant => exact Iff.rfl
  | paren _ ih => exact ih
  | ofPrimary _ ih | ofPostfix _ ih | ofUnary _ ih | ofMultiplicative _ ih | ofAdditive _ ih
  | ofRelational _ ih | ofEquality _ ih => exact ih
  | call hf _ ih ihs =>
    rw [context, ExprContext.Respects, ReadsAlike, ih, respectsList_iff ihs]
    exact and_iff_right hf.levels.2
  | member _ hf ih =>
    rw [context, ExprContext.Respects, ReadsAlike, ih]
    exact and_iff_right (le_trans (by decide) hf.levels.2)
  | subscript hf _ ih ih' =>
    rw [context, ExprContext.Respects, ReadsAlike, ih, ih']
    exact and_iff_right (le_trans (by decide) hf.levels.2)
  | indirection hu ih =>
    rw [context, ExprContext.Respects, ReadsAlike, ih, hu.le_loopLevel_iff (by decide)]
  | address hu ih =>
    rw [context, ExprContext.Respects, ReadsAlike, ih]
    exact and_iff_right (le_trans (by decide) hu.levels.1)
  | @minus e hu ih =>
    rw [ReadsAlike]
    by_cases hc : e.IsConstant
    · cases e with
      | constant n => exact iff_of_true trivial ⟨fun _ ↦ trivial, trivial⟩
      | _ => exact absurd hc id
    · rw [context_minus hc, ExprContext.Respects, ih, hu.leadsWithNumber_iff (by decide)]
      have hloop : 21 ≤ e.context.loopLevel := le_trans (by decide) hu.levels.1
      simp only [hloop, hc, true_and, imp_false]
  | multiplicative _ hl hr ihl ihr | additive _ hl hr ihl ihr | relational _ hl hr ihl ihr
  | equality _ hl hr ihl ihr =>
    rw [context, ExprContext.Respects, ReadsAlike, ihl, ihr]
    exact and_iff_right ⟨hl.levels.2, le_trans (by decide) hr.levels.1⟩
  | conditional hc _ he ihc iht ihe =>
    have hopen : 13 < _ := le_trans (by decide) hc.levels.2
    rw [context, ExprContext.Respects, ReadsAlike, RespectsBinary, ihc, iht, ihe,
      he.lt_loopLevel_iff]
    exact and_congr_left fun _ ↦ and_iff_right hopen

/-- The rule `expr` reads the tokens of an expression of C as C does exactly where no `*` has an indexed
operand, no minus a number with suffixes and no `?:` a bare `?:` after its colon. -/
theorem reads_iff {e : CExpr} (h : Derives .conditional e) :
    (∃ n, parseExpr n 0 e.tokens = some (e.context, [])) ↔ e.ReadsAlike := by
  rw [← h.respects_iff, ← tokens_context]
  constructor
  · rintro ⟨n, hn⟩
    exact (parseExpr_sound hn).2
  · intro hr
    obtain ⟨N, hN⟩ := hr.settles
    exact ⟨N, hN N le_rfl⟩

/-- `x[0]` -/
def firstElement : CExpr :=
  .subscript (.identifier ⟨"x", by decide⟩) (.constant (.ofNat 0))

theorem derives_firstElement : Derives .unary firstElement :=
  .ofPostfix (.subscript (.ofPrimary (.identifier _)) (.ofEquality (.ofRelational (.ofAdditive
    (.ofMultiplicative (.ofUnary (.ofPostfix (.ofPrimary (.constant _)))))))))

/-- `-x[0]` is read as C reads it. -/
theorem reads_minus_firstElement :
    ∃ n, parseExpr n 0 (minus firstElement).tokens = some ((minus firstElement).context, []) :=
  (reads_iff (.ofEquality (.ofRelational (.ofAdditive (.ofMultiplicative (.ofUnary
    derives_firstElement.minus)))))).2 ⟨id, trivial, trivial⟩

/-- `*x[0]` is the element of `*x`. -/
theorem not_reads_indirection_firstElement : Derives .conditional (indirection firstElement) ∧
    ¬ ∃ n, parseExpr n 0 (indirection firstElement).tokens =
      some ((indirection firstElement).context, []) := by
  refine ⟨.ofEquality (.ofRelational (.ofAdditive (.ofMultiplicative (.ofUnary
    derives_firstElement.indirection)))), ?_⟩
  rintro ⟨n, hn⟩
  exact absurd (parseExpr_sound hn).2.1 (by decide)

end CExpr

end Sipc
