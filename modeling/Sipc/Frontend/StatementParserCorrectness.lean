import Sipc.Frontend.FrontEnd
import Sipc.Frontend.StatementParser

/-!
# What the statement parser accepts

Among the ways to read a statement are the trees whose expressions respect the levels and in which an
`else` belongs to the nearest `if` (`StatementContext.Respects`), and no others. The tokens of every
tree are those of such a tree, so the method of the rule `function` matches a function wherever the
grammar derives one (`generatedFunction_parseFunction`).
-/

set_option autoImplicit false
set_option relaxedAutoImplicit false

namespace Sipc

open Library Library.Choices

/-! ### Trees in which an else belongs to the nearest if -/

/-- The statement ends with an `if` that an `else` behind it would belong to. -/
def StatementContext.EndsOpen : StatementContext → Prop
  | .ifStmt _ _ => True
  | .ifElseStmt _ _ elseStmt => elseStmt.EndsOpen
  | .whileStmt _ body | .forByStmt _ _ _ _ body | .forRangeStmt _ _ _ body
  | .forInStmt _ _ body => body.EndsOpen
  | _ => False

mutual

/-- The expressions respect the levels, and an `else` belongs to the nearest `if`. -/
def StatementContext.Respects : StatementContext → Prop
  | .blockStmt stmts => StatementContext.RespectsList stmts
  | .assignStmt lhs rhs => lhs.Respects ∧ rhs.Respects
  | .updateStmt arg _ => arg.Respects
  | .whileStmt condition body => condition.Respects ∧ body.Respects
  | .forByStmt item rangeStart rangeEnd increment body => item.Respects ∧ rangeStart.Respects ∧
    rangeEnd.Respects ∧ increment.Respects ∧ body.Respects
  | .forRangeStmt item rangeStart rangeEnd body =>
    item.Respects ∧ rangeStart.Respects ∧ rangeEnd.Respects ∧ body.Respects
  | .forInStmt item iterator body => item.Respects ∧ iterator.Respects ∧ body.Respects
  | .ifStmt condition thenStmt => condition.Respects ∧ thenStmt.Respects
  | .ifElseStmt condition thenStmt elseStmt =>
    condition.Respects ∧ thenStmt.Respects ∧ ¬ thenStmt.EndsOpen ∧ elseStmt.Respects
  | .outputStmt arg => arg.Respects
  | .errorStmt arg => arg.Respects

def StatementContext.RespectsList : List StatementContext → Prop
  | [] => True
  | s :: ss => s.Respects ∧ StatementContext.RespectsList ss

end

/-- The expressions of the function respect the levels, and an `else` in it belongs to the nearest
`if`. -/
def FunctionContext.Respects (f : FunctionContext) : Prop :=
  StatementContext.RespectsList f.statements ∧ f.returned.Respects

/-! ### Soundness -/

/-- The statement was read from `ts`, respects the grammar's choices, and takes an `else` behind it if
it can. -/
structure StatementRead (ts : List Token) (s : StatementContext) (rest : List Token) : Prop where
  tokens : ts = s.tokens ++ rest
  respects : s.Respects
  closed : s.EndsOpen → rest.head? ≠ some .kElse

/-- Every way of the rule is a statement that was read. -/
def SoundStatement (statement : Rule StatementContext) : Prop :=
  ∀ {ts s rest}, (s, rest) ∈ statement ts → StatementRead ts s rest

/-- Every way of the rule is a list of statements that were read. -/
def SoundStatements (statements : Rule (List StatementContext)) : Prop :=
  ∀ {ts ss rest}, (ss, rest) ∈ statements ts →
    ts = StatementContext.tokensList ss ++ rest ∧ StatementContext.RespectsList ss

section Sound

variable {n : ℕ} {ts rest : List Token}

theorem exprRule_sound {e : ExprContext} (h : (e, rest) ∈ exprRule n ts) :
    ts = e.tokens ++ rest ∧ e.Respects :=
  have hspec := parseExpr_spec (mem_lift.1 h)
  ⟨hspec.1, hspec.2.1⟩

theorem nameRule_sound {x : Identifier} (h : (x, rest) ∈ nameRule ts) :
    ts = .identifier x :: rest := by
  obtain ⟨t, rfl, ht⟩ := mem_next.1 h
  split at ht
  · cases ht
    rfl
  · cases ht

theorem updateOpRule_sound {op : OneOf [.mm, .pp]} (h : (op, rest) ∈ updateOpRule ts) :
    ts = op.1 :: rest := by
  obtain ⟨t, rfl, ht⟩ := mem_next.1 h
  split at ht
  · cases ht
    rfl
  · cases ht

theorem soundStatement_block {statements : Rule (List StatementContext)}
    (hs : SoundStatements statements) : SoundStatement (blockStmtRule statements) := by
  intro ts s rest h
  simp only [blockStmtRule, mem_bind, mem_token, mem_pure, Prod.mk.injEq] at h
  obtain ⟨-, ts₁, rfl, ss, ts₂, hss, -, ts₃, rfl, rfl, rfl⟩ := h
  obtain ⟨rfl, hrespects⟩ := hs hss
  exact ⟨by simp [StatementContext.tokens], hrespects, fun h ↦ h.elim⟩

theorem soundStatement_assign : SoundStatement (assignStmtRule n) := by
  intro ts s rest h
  simp only [assignStmtRule, mem_bind, mem_token, mem_pure, Prod.mk.injEq] at h
  obtain ⟨l, ts₁, hl, -, ts₂, rfl, r, ts₃, hr, -, ts₄, rfl, rfl, rfl⟩ := h
  obtain ⟨rfl, hl'⟩ := exprRule_sound hl
  obtain ⟨rfl, hr'⟩ := exprRule_sound hr
  exact ⟨by simp [StatementContext.tokens], ⟨hl', hr'⟩, fun h ↦ h.elim⟩

theorem soundStatement_update : SoundStatement (updateStmtRule n) := by
  intro ts s rest h
  simp only [updateStmtRule, mem_bind, mem_token, mem_pure, Prod.mk.injEq] at h
  obtain ⟨e, ts₁, he, op, ts₂, hop, -, ts₃, rfl, rfl, rfl⟩ := h
  obtain ⟨rfl, he'⟩ := exprRule_sound he
  obtain rfl := updateOpRule_sound hop
  exact ⟨by simp [StatementContext.tokens], he', fun h ↦ h.elim⟩

variable {statement : Rule StatementContext} (hs : SoundStatement statement)

include hs

theorem soundStatement_while : SoundStatement (whileStmtRule n statement) := by
  intro ts s rest h
  simp only [whileStmtRule, mem_bind, mem_token, mem_pure, Prod.mk.injEq] at h
  obtain ⟨-, ts₁, rfl, -, ts₂, rfl, c, ts₃, hc, -, ts₄, rfl, b, ts₅, hb, rfl, rfl⟩ := h
  obtain ⟨rfl, hc'⟩ := exprRule_sound hc
  have hb := hs hb
  exact ⟨by simp [StatementContext.tokens, hb.tokens], ⟨hc', hb.respects⟩, hb.closed⟩

theorem soundStatement_forBy : SoundStatement (forByStmtRule n statement) := by
  intro ts s rest h
  simp only [forByStmtRule, mem_bind, mem_token, mem_pure, Prod.mk.injEq] at h
  obtain ⟨-, ts₁, rfl, -, ts₂, rfl, i, ts₃, hi, -, ts₄, rfl, a, ts₅, ha, -, ts₆, rfl, z, ts₇, hz, -,
    ts₈, rfl, k, ts₉, hk, -, ts₁₀, rfl, b, ts₁₁, hb, rfl, rfl⟩ := h
  obtain ⟨rfl, hi'⟩ := exprRule_sound hi
  obtain ⟨rfl, ha'⟩ := exprRule_sound ha
  obtain ⟨rfl, hz'⟩ := exprRule_sound hz
  obtain ⟨rfl, hk'⟩ := exprRule_sound hk
  have hb := hs hb
  exact ⟨by simp [StatementContext.tokens, hb.tokens], ⟨hi', ha', hz', hk', hb.respects⟩, hb.closed⟩

theorem soundStatement_forRange : SoundStatement (forRangeStmtRule n statement) := by
  intro ts s rest h
  simp only [forRangeStmtRule, mem_bind, mem_token, mem_pure, Prod.mk.injEq] at h
  obtain ⟨-, ts₁, rfl, -, ts₂, rfl, i, ts₃, hi, -, ts₄, rfl, a, ts₅, ha, -, ts₆, rfl, z, ts₇, hz, -,
    ts₈, rfl, b, ts₉, hb, rfl, rfl⟩ := h
  obtain ⟨rfl, hi'⟩ := exprRule_sound hi
  obtain ⟨rfl, ha'⟩ := exprRule_sound ha
  obtain ⟨rfl, hz'⟩ := exprRule_sound hz
  have hb := hs hb
  exact ⟨by simp [StatementContext.tokens, hb.tokens], ⟨hi', ha', hz', hb.respects⟩, hb.closed⟩

theorem soundStatement_forIn : SoundStatement (forInStmtRule n statement) := by
  intro ts s rest h
  simp only [forInStmtRule, mem_bind, mem_token, mem_pure, Prod.mk.injEq] at h
  obtain ⟨-, ts₁, rfl, -, ts₂, rfl, i, ts₃, hi, -, ts₄, rfl, a, ts₅, ha, -, ts₆, rfl, b, ts₇, hb, rfl,
    rfl⟩ := h
  obtain ⟨rfl, hi'⟩ := exprRule_sound hi
  obtain ⟨rfl, ha'⟩ := exprRule_sound ha
  have hb := hs hb
  exact ⟨by simp [StatementContext.tokens, hb.tokens], ⟨hi', ha', hb.respects⟩, hb.closed⟩

theorem soundStatement_if : SoundStatement (ifStmtRule n statement) := by
  intro ts s rest h
  simp only [ifStmtRule, mem_bind, mem_token] at h
  obtain ⟨-, ts₁, rfl, -, ts₂, rfl, c, ts₃, hc, -, ts₄, rfl, t, ts₅, ht, h⟩ := h
  obtain ⟨rfl, hc'⟩ := exprRule_sound hc
  have ht := hs ht
  rcases mem_ifNext h with ⟨ts₆, rfl, h⟩ | ⟨hhead, h⟩
  · -- the then branch is not open, since an `else` comes behind it
    obtain ⟨e, ts₇, he, h⟩ := mem_bind.1 h
    obtain ⟨rfl, rfl⟩ := Prod.mk.inj (mem_pure.1 h)
    have he := hs he
    refine ⟨by simp [StatementContext.tokens, ht.tokens, he.tokens],
      ⟨hc', ht.respects, fun hopen ↦ ht.closed hopen rfl, he.respects⟩, he.closed⟩
  · obtain ⟨rfl, rfl⟩ := Prod.mk.inj (mem_pure.1 h)
    exact ⟨by simp [StatementContext.tokens, ht.tokens], ⟨hc', ht.respects⟩, fun _ ↦ hhead⟩

omit hs

theorem soundStatement_output : SoundStatement (outputStmtRule n) := by
  intro ts s rest h
  simp only [outputStmtRule, mem_bind, mem_token, mem_pure, Prod.mk.injEq] at h
  obtain ⟨-, ts₁, rfl, e, ts₂, he, -, ts₃, rfl, rfl, rfl⟩ := h
  obtain ⟨rfl, he'⟩ := exprRule_sound he
  exact ⟨by simp [StatementContext.tokens], he', fun h ↦ h.elim⟩

theorem soundStatement_error : SoundStatement (errorStmtRule n) := by
  intro ts s rest h
  simp only [errorStmtRule, mem_bind, mem_token, mem_pure, Prod.mk.injEq] at h
  obtain ⟨-, ts₁, rfl, e, ts₂, he, -, ts₃, rfl, rfl, rfl⟩ := h
  obtain ⟨rfl, he'⟩ := exprRule_sound he
  exact ⟨by simp [StatementContext.tokens], he', fun h ↦ h.elim⟩

end Sound

mutual

/-- The rule `statement` is sound, by induction on the fuel. -/
theorem statementRule_sound : ∀ n, SoundStatement (statementRule n)
  | 0, _, _, _, h => absurd h not_mem_failure
  | n + 1, ts, s, rest, h => by
    have hs := @statementRule_sound n
    rw [statementRule] at h
    simp only [mem_orElse] at h
    rcases h with h | h | h | h | h | h | h | h | h | h
    · exact soundStatement_block (statementsRule_sound n) h
    · exact soundStatement_assign h
    · exact soundStatement_update h
    · exact soundStatement_while hs h
    · exact soundStatement_forBy hs h
    · exact soundStatement_forRange hs h
    · exact soundStatement_forIn hs h
    · exact soundStatement_if hs h
    · exact soundStatement_output h
    · exact soundStatement_error h

theorem statementsRule_sound : ∀ n, SoundStatements (statementsRule n)
  | 0, _, _, _, h => absurd h not_mem_failure
  | n + 1, ts, ss, rest, h => by
    rw [statementsRule] at h
    simp only [mem_orElse, mem_bind, mem_pure, Prod.mk.injEq] at h
    rcases h with ⟨s, ts₁, hs, ss', ts₂, hss, rfl, rfl⟩ | ⟨rfl, rfl⟩
    · obtain ⟨rfl, hrespects⟩ := statementsRule_sound n hss
      have hs := statementRule_sound n hs
      exact ⟨by rw [hs.tokens, StatementContext.tokensList, List.append_assoc],
        hs.respects, hrespects⟩
    · exact ⟨rfl, trivial⟩

end

/-! ### The left edge of an expression -/

/-- The primary expression at the left edge. -/
def ExprContext.leftEdge : ExprContext → ExprContext
  | .funAppExpr e _ | .accessExpr e _ | .arrayIndexingExpr e _ | .multiplicativeExpr _ e _
  | .additiveExpr _ e _ | .relationalExpr _ e _ | .equalityExpr _ e _ | .ternaryExpr e _ _
  | .nonShortCircuiting _ e _ | .boolOps _ e _ => e.leftEdge
  | e => e

/-- The tokens are none, or begin with one that continues an expression. -/
def ContinuesExpr (ts : List Token) : Prop :=
  ts = [] ∨ ∃ k, nextLevel ts = some k

theorem ContinuesExpr.append {ts us : List Token} (h : ContinuesExpr ts) (hu : ContinuesExpr us) :
    ContinuesExpr (ts ++ us) := by
  rcases h with rfl | ⟨k, hk⟩
  · exact hu
  · obtain ⟨op, hop, hlevel⟩ := Option.bind_eq_some_iff.1 hk
    obtain ⟨ts', rfl⟩ := List.head?_eq_some_iff.1 hop
    exact .inr ⟨k, hlevel⟩

/-- The tokens of the expression are those of the head and what continues it. -/
structure HasEdge (e head : ExprContext) : Prop where
  exists_tokens : ∃ ts, e.tokens = head.tokens ++ ts ∧ ContinuesExpr ts
  loopLevel : head.loopLevel = 27

theorem HasEdge.append {e l head : ExprContext} (h : HasEdge l head) (ts : List Token)
    (htokens : e.tokens = l.tokens ++ ts) (hts : ContinuesExpr ts) : HasEdge e head := by
  obtain ⟨us, hus, hcontinues⟩ := h.exists_tokens
  exact ⟨⟨us ++ ts, by rw [htokens, hus, List.append_assoc], hcontinues.append hts⟩, h.loopLevel⟩

theorem HasEdge.binary {op : Token} {k : ℕ} {mk : ExprContext → ExprContext → ExprContext}
    (hop : binaryContext op = some (k, mk)) {l r head : ExprContext} (h : HasEdge l head) :
    HasEdge (mk l r) head :=
  have hbinary := isBinary_of_context hop
  h.append _ (hbinary.tokens l r) (.inr ⟨k, hbinary.level⟩)

theorem hasEdge_self {e : ExprContext} (h : e.loopLevel = 27) : HasEdge e e :=
  ⟨⟨[], (List.append_nil _).symm, .inl rfl⟩, h⟩

theorem ExprContext.hasEdge : ∀ e : ExprContext, HasEdge e e.leftEdge
  | .deRefExpr _ | .negNumber _ | .negExpr _ | .refExpr _ | .arrayLenExpr _ | .notExpr _ | .varExpr _
  | .numExpr _ | .inputExpr | .allocExpr _ | .nullExpr | .boolExpr _ | .recordRule _
  | .arrayLiteral _ | .arrayOfExpr _ _ | .parenExpr _ => hasEdge_self rfl
  | .funAppExpr e as => e.hasEdge.append (.lparen :: (commas (tokensList as) ++ [.rparen]))
      (by simp [ExprContext.tokens]) (.inr ⟨26, rfl⟩)
  | .accessExpr e x => e.hasEdge.append [.dot, .identifier x] rfl (.inr ⟨25, rfl⟩)
  | .arrayIndexingExpr e i => e.hasEdge.append (.lbracket :: (i.tokens ++ [.rbracket]))
      (by simp [ExprContext.tokens]) (.inr ⟨23, rfl⟩)
  | .ternaryExpr e t f => e.hasEdge.append (.question :: (t.tokens ++ .colon :: f.tokens))
      (by simp [ExprContext.tokens]) (.inr ⟨13, rfl⟩)
  | .multiplicativeExpr op e _ => e.hasEdge.binary (binaryContext_multiplicative op)
  | .additiveExpr op e _ => e.hasEdge.binary (binaryContext_additive op)
  | .relationalExpr op e _ => e.hasEdge.binary (binaryContext_relational op)
  | .equalityExpr op e _ => e.hasEdge.binary (binaryContext_equality op)
  | .nonShortCircuiting op e _ => e.hasEdge.binary (binaryContext_nonShortCircuiting op)
  | .boolOps op e _ => e.hasEdge.binary (binaryContext_boolOps op)

/-- A token that no expression begins with. -/
def Token.OpensNoExpr : Token → Prop
  | .rbrace | .kVar | .kWhile | .kFor | .kIf | .kElse | .kReturn | .kOutput | .kError => True
  | _ => False

/-- What an expression begins with: its first token, and what comes behind a name or a brace. -/
inductive ExprOpening : List Token → Prop
  | name (x : Identifier) {ts : List Token} (h : ContinuesExpr ts) : ExprOpening (.identifier x :: ts)
  | emptyRecord (ts : List Token) : ExprOpening (.lbrace :: .rbrace :: ts)
  | record (x : Identifier) (ts : List Token) : ExprOpening (.lbrace :: .identifier x :: .colon :: ts)
  | other {t : Token} (ts : List Token) (h : ¬ t.OpensNoExpr) (hbrace : t ≠ .lbrace)
      (hname : ∀ x, t ≠ .identifier x) : ExprOpening (t :: ts)

theorem HasEdge.opening {e head : ExprContext} (h : HasEdge e head) :
    ExprOpening e.tokens ∧ (head ≠ .recordRule [] → ∀ ts, e.tokens ≠ .lbrace :: .rbrace :: ts) := by
  obtain ⟨us, htokens, hus⟩ := h.exists_tokens
  have hlevel := h.loopLevel
  rw [htokens]
  have hother : ∀ {t : Token} {ts : List Token}, ¬ t.OpensNoExpr → t ≠ .lbrace →
      (∀ x, t ≠ .identifier x) → ExprOpening (t :: ts) ∧
        (head ≠ .recordRule [] → ∀ ts', t :: ts ≠ .lbrace :: .rbrace :: ts') := fun ht hb hx ↦
    ⟨.other _ ht hb hx, fun _ ts' heq ↦ hb (List.cons.inj heq).1⟩
  cases head with
  | varExpr x => exact ⟨.name x hus, fun _ ts heq ↦ by cases heq⟩
  | recordRule fs =>
    cases fs with
    | nil => exact ⟨.emptyRecord us, fun h ↦ absurd rfl h⟩
    | cons f fs =>
      obtain ⟨x, e⟩ := f
      cases fs with
      | nil => exact ⟨.record x _, fun _ ts heq ↦ by cases heq⟩
      | cons g gs =>
        obtain ⟨y, e'⟩ := g
        exact ⟨.record x _, fun _ ts heq ↦ by cases heq⟩
  | boolExpr op =>
    obtain ⟨op, hop⟩ := op
    simp only [List.mem_cons, List.not_mem_nil, or_false] at hop
    rcases hop with rfl | rfl <;> exact hother id (by simp) (by simp)
  | funAppExpr f es => simp only [ExprContext.loopLevel] at hlevel; omega
  | accessExpr r x => simp only [ExprContext.loopLevel] at hlevel; omega
  | arrayIndexingExpr a i => simp only [ExprContext.loopLevel] at hlevel; omega
  | multiplicativeExpr op l r => simp only [ExprContext.loopLevel] at hlevel; omega
  | additiveExpr op l r => simp only [ExprContext.loopLevel] at hlevel; omega
  | relationalExpr op l r => simp only [ExprContext.loopLevel] at hlevel; omega
  | equalityExpr op l r => simp only [ExprContext.loopLevel] at hlevel; omega
  | ternaryExpr c t f => simp only [ExprContext.loopLevel] at hlevel; omega
  | nonShortCircuiting op l r => simp only [ExprContext.loopLevel] at hlevel; omega
  | boolOps op l r => simp only [ExprContext.loopLevel] at hlevel; omega
  | _ => exact hother id (by simp) (by simp)

theorem ExprContext.opening (e : ExprContext) : ExprOpening e.tokens :=
  e.hasEdge.opening.1

/-- No statement begins like a field of a record. -/
theorem ExprContext.tokens_append_ne (e : ExprContext) {t : Token} (ht : t ≠ .colon) (us : List Token)
    (x : Identifier) (vs : List Token) : e.tokens ++ t :: us ≠ .identifier x :: .colon :: vs := by
  intro heq
  have hopening := e.opening
  cases htokens : e.tokens with
  | nil =>
    rw [htokens] at hopening
    cases hopening
  | cons a as =>
    rw [htokens] at hopening heq
    obtain ⟨rfl, hrest⟩ := List.cons.inj heq
    cases hopening with
    | name y h =>
      rcases h with rfl | ⟨k, hk⟩
      · exact ht (List.cons.inj hrest).1
      · obtain ⟨op, hop, hlevel⟩ := Option.bind_eq_some_iff.1 hk
        obtain ⟨as', rfl⟩ := List.head?_eq_some_iff.1 hop
        obtain rfl := (List.cons.inj hrest).1
        cases hlevel
    | other _ _ _ hname => exact hname x rfl

theorem StatementContext.tokens_append_ne (s : StatementContext) (us : List Token) (x : Identifier)
    (vs : List Token) : s.tokens ++ us ≠ .identifier x :: .colon :: vs := by
  cases s with
  | assignStmt l r =>
    rw [StatementContext.tokens, List.append_assoc, List.cons_append]
    exact l.tokens_append_ne (by decide) _ x vs
  | updateStmt e op =>
    rw [StatementContext.tokens, List.append_assoc, List.cons_append]
    refine e.tokens_append_ne (fun heq ↦ ?_) _ x vs
    have hop := op.2
    rw [heq] at hop
    simp at hop
  | _ => intro heq; cases heq

/-! ### Completeness -/

mutual

/-- No assignment or update in it begins with an empty record, which reads like an empty block. -/
def StatementContext.Plain : StatementContext → Prop
  | .blockStmt stmts => StatementContext.PlainList stmts
  | .assignStmt lhs _ => lhs.leftEdge ≠ .recordRule []
  | .updateStmt arg _ => arg.leftEdge ≠ .recordRule []
  | .whileStmt _ body | .forByStmt _ _ _ _ body | .forRangeStmt _ _ _ body
  | .forInStmt _ _ body | .ifStmt _ body => body.Plain
  | .ifElseStmt _ thenStmt elseStmt => thenStmt.Plain ∧ elseStmt.Plain
  | .outputStmt _ | .errorStmt _ => True

def StatementContext.PlainList : List StatementContext → Prop
  | [] => True
  | s :: ss => s.Plain ∧ StatementContext.PlainList ss

end

/-- Enough fuel for the expressions among the tokens. -/
def EnoughFuel (n : ℕ) (ts : List Token) : Prop :=
  5 * ts.length + 3 ≤ n

theorem EnoughFuel.tail {n : ℕ} {t : Token} {ts : List Token} (h : EnoughFuel n (t :: ts)) :
    EnoughFuel n ts := by
  unfold EnoughFuel at *
  rw [List.length_cons] at h
  omega

theorem EnoughFuel.drop {n : ℕ} {ts us : List Token} (h : EnoughFuel n (ts ++ us)) :
    EnoughFuel n us := by
  unfold EnoughFuel at *
  rw [List.length_append] at h
  omega

theorem EnoughFuel.succ {n : ℕ} {ts : List Token} (h : EnoughFuel n ts) : EnoughFuel (n + 1) ts :=
  Nat.le_succ_of_le h

section Rules

variable {α : Type} {n : ℕ} {ts rest : List Token}

theorem bind_exprRule {f : ExprContext → Rule α} {e : ExprContext} (he : e.Respects)
    (hn : EnoughFuel n (e.tokens ++ rest)) (hrest : nextLevel rest = none) :
    (exprRule n >>= f) (e.tokens ++ rest) = f e rest :=
  bind_of_eq (by rw [exprRule, lift, he.parseExpr_eq hrest hn]; rfl)

theorem bind_exprRule_eq_nil {f : ExprContext → Rule α} {t : Token} (ht : t.OpensNoExpr) :
    (exprRule n >>= f) (t :: ts) = [] := by
  refine bind_eq_nil fun e ts' he ↦ ?_
  obtain ⟨htokens, -⟩ := exprRule_sound he
  have hopening := e.opening
  cases heq : e.tokens with
  | nil =>
    rw [heq] at hopening
    cases hopening
  | cons a as =>
    rw [heq] at htokens hopening
    obtain rfl := (List.cons.inj htokens).1
    cases hopening with
    | name | emptyRecord | record => exact ht.elim
    | other _ h => exact absurd ht h

/-- A token that no statement begins with. -/
def Token.OpensNoStatement : Token → Prop
  | .rbrace | .kVar | .kElse | .kReturn => True
  | _ => False

theorem Token.OpensNoStatement.opensNoExpr {t : Token} (h : t.OpensNoStatement) : t.OpensNoExpr := by
  cases t <;> first | exact h.elim | trivial

theorem ExprContext.head_ne (e : ExprContext) {t : Token} (ht : t.OpensNoExpr) (us ts : List Token) :
    e.tokens ++ us ≠ t :: ts := by
  intro heq
  have hopening := e.opening
  cases htokens : e.tokens with
  | nil =>
    rw [htokens] at hopening
    cases hopening
  | cons a as =>
    rw [htokens] at heq hopening
    obtain rfl := (List.cons.inj heq).1
    cases hopening with
    | name | emptyRecord | record => exact ht.elim
    | other _ h => exact h ht

theorem StatementContext.head_ne (s : StatementContext) {t : Token} (ht : t.OpensNoStatement)
    (us ts : List Token) : s.tokens ++ us ≠ t :: ts := by
  cases s with
  | assignStmt l r =>
    rw [StatementContext.tokens, List.append_assoc]
    exact l.head_ne ht.opensNoExpr _ ts
  | updateStmt e op =>
    rw [StatementContext.tokens, List.append_assoc]
    exact e.head_ne ht.opensNoExpr _ ts
  | _ =>
    rintro heq
    obtain rfl := (List.cons.inj heq).1
    exact ht.elim

/-- No statement is read where none begins. -/
theorem statementRule_eq_nil {t : Token} (ht : t.OpensNoStatement) :
    statementRule n (t :: ts) = [] := by
  refine List.eq_nil_iff_forall_not_mem.2 fun ⟨s, rest⟩ hs ↦ ?_
  exact s.head_ne ht rest ts (statementRule_sound n hs).tokens.symm

/-- Nothing is read as a block where a field of a record comes behind the brace. -/
theorem blockStmtRule_eq_nil_of_field (x : Identifier) :
    blockStmtRule (statementsRule n) (.lbrace :: .identifier x :: .colon :: ts) = [] := by
  rw [blockStmtRule, bind_token]
  refine bind_eq_nil fun ss ts' hss ↦ ?_
  obtain ⟨htokens, -⟩ := statementsRule_sound n hss
  cases ss with
  | nil =>
    obtain rfl : _ = ts' := htokens
    exact bind_token_of_ne (by simp)
  | cons s ss =>
    rw [StatementContext.tokensList, List.append_assoc] at htokens
    exact absurd htokens.symm (s.tokens_append_ne _ x ts)

/-- Nothing is read as a block where an expression begins with something else than an empty record. -/
theorem blockStmtRule_eq_nil {e : ExprContext} (he : e.leftEdge ≠ .recordRule []) :
    blockStmtRule (statementsRule n) (e.tokens ++ ts) = [] := by
  have hopening := e.opening
  have hne := e.hasEdge.opening.2 he
  cases htokens : e.tokens with
  | nil =>
    rw [htokens] at hopening
    cases hopening
  | cons a as =>
    rw [htokens] at hopening hne
    cases hopening with
    | name x h => exact bind_token_of_ne (by simp)
    | emptyRecord ts' => exact absurd rfl (hne ts')
    | record x ts' => exact blockStmtRule_eq_nil_of_field x
    | other _ _ hbrace _ => exact bind_token_of_ne hbrace

theorem EnoughFuel.sub {t : Token} (h : EnoughFuel n (t :: ts)) : ∃ m, n = m + 2 ∧ EnoughFuel m ts := by
  unfold EnoughFuel at *
  rw [List.length_cons] at h
  exact ⟨n - 2, by omega, by omega⟩

/-! #### The rules on their tokens -/

variable {strict : Prop} {statement : Rule StatementContext}

theorem assignStmtRule_run {l r : ExprContext} (hl : l.Respects) (hr : r.Respects)
    (hn : EnoughFuel n (l.tokens ++ .assign :: (r.tokens ++ .semi :: rest))) :
    assignStmtRule n (l.tokens ++ .assign :: (r.tokens ++ .semi :: rest)) =
      [(.assignStmt l r, rest)] := by
  rw [assignStmtRule, bind_exprRule hl hn rfl, bind_token, bind_exprRule hr hn.drop.tail rfl,
    bind_token]
  rfl

theorem updateStmtRule_run {e : ExprContext} (he : e.Respects) (op : OneOf [.mm, .pp])
    (hn : EnoughFuel n (e.tokens ++ op.1 :: .semi :: rest)) :
    updateStmtRule n (e.tokens ++ op.1 :: .semi :: rest) = [(.updateStmt e op, rest)] ∧
      assignStmtRule n (e.tokens ++ op.1 :: .semi :: rest) = [] := by
  obtain ⟨op, hop⟩ := op
  have h := hop
  simp only [List.mem_cons, List.not_mem_nil, or_false] at h
  rcases h with rfl | rfl
  · constructor
    · rw [updateStmtRule, bind_exprRule he hn rfl]
      rfl
    · rw [assignStmtRule, bind_exprRule he hn rfl]
      rfl
  · constructor
    · rw [updateStmtRule, bind_exprRule he hn rfl]
      rfl
    · rw [assignStmtRule, bind_exprRule he hn rfl]
      rfl

theorem whileStmtRule_run {c : ExprContext} (hc : c.Respects)
    (hn : EnoughFuel n (.kWhile :: .lparen :: (c.tokens ++ .rparen :: ts))) :
    whileStmtRule n statement (.kWhile :: .lparen :: (c.tokens ++ .rparen :: ts)) =
      (statement >>= fun b ↦ pure (.whileStmt c b)) ts := by
  rw [whileStmtRule, bind_token, bind_token, bind_exprRule hc hn.tail.tail rfl, bind_token]

theorem forByStmtRule_run {i a z k : ExprContext} (hi : i.Respects) (ha : a.Respects)
    (hz : z.Respects) (hk : k.Respects)
    (hn : EnoughFuel n (.kFor :: .lparen :: (i.tokens ++ .colon :: (a.tokens ++ .dotDot ::
      (z.tokens ++ .kBy :: (k.tokens ++ .rparen :: ts)))))) :
    forByStmtRule n statement (.kFor :: .lparen :: (i.tokens ++ .colon :: (a.tokens ++ .dotDot ::
      (z.tokens ++ .kBy :: (k.tokens ++ .rparen :: ts))))) =
      (statement >>= fun b ↦ pure (.forByStmt i a z k b)) ts := by
  rw [forByStmtRule, bind_token, bind_token, bind_exprRule hi hn.tail.tail rfl, bind_token,
    bind_exprRule ha hn.tail.tail.drop.tail rfl, bind_token,
    bind_exprRule hz hn.tail.tail.drop.tail.drop.tail rfl, bind_token,
    bind_exprRule hk hn.tail.tail.drop.tail.drop.tail.drop.tail rfl, bind_token]

variable (statement) in
theorem forRangeStmtRule_run {i a z : ExprContext} (hi : i.Respects) (ha : a.Respects)
    (hz : z.Respects) (hn : EnoughFuel n (.kFor :: .lparen :: (i.tokens ++ .colon ::
      (a.tokens ++ .dotDot :: (z.tokens ++ .rparen :: ts))))) :
    forRangeStmtRule n statement (.kFor :: .lparen :: (i.tokens ++ .colon ::
        (a.tokens ++ .dotDot :: (z.tokens ++ .rparen :: ts)))) =
        (statement >>= fun b ↦ pure (.forRangeStmt i a z b)) ts ∧
      forByStmtRule n statement (.kFor :: .lparen :: (i.tokens ++ .colon ::
        (a.tokens ++ .dotDot :: (z.tokens ++ .rparen :: ts)))) = [] := by
  constructor
  · rw [forRangeStmtRule, bind_token, bind_token, bind_exprRule hi hn.tail.tail rfl, bind_token,
      bind_exprRule ha hn.tail.tail.drop.tail rfl, bind_token,
      bind_exprRule hz hn.tail.tail.drop.tail.drop.tail rfl, bind_token]
  · rw [forByStmtRule, bind_token, bind_token, bind_exprRule hi hn.tail.tail rfl, bind_token,
      bind_exprRule ha hn.tail.tail.drop.tail rfl, bind_token,
      bind_exprRule hz hn.tail.tail.drop.tail.drop.tail rfl]
    exact bind_token_of_ne (by simp)

variable (statement) in
theorem forInStmtRule_run {i a : ExprContext} (hi : i.Respects) (ha : a.Respects)
    (hn : EnoughFuel n (.kFor :: .lparen :: (i.tokens ++ .colon :: (a.tokens ++ .rparen :: ts)))) :
    forInStmtRule n statement (.kFor :: .lparen :: (i.tokens ++ .colon ::
        (a.tokens ++ .rparen :: ts))) = (statement >>= fun b ↦ pure (.forInStmt i a b)) ts ∧
      forRangeStmtRule n statement (.kFor :: .lparen :: (i.tokens ++ .colon ::
        (a.tokens ++ .rparen :: ts))) = [] ∧
      forByStmtRule n statement (.kFor :: .lparen :: (i.tokens ++ .colon ::
        (a.tokens ++ .rparen :: ts))) = [] := by
  refine ⟨?_, ?_, ?_⟩
  · rw [forInStmtRule, bind_token, bind_token, bind_exprRule hi hn.tail.tail rfl, bind_token,
      bind_exprRule ha hn.tail.tail.drop.tail rfl, bind_token]
  · rw [forRangeStmtRule, bind_token, bind_token, bind_exprRule hi hn.tail.tail rfl, bind_token,
      bind_exprRule ha hn.tail.tail.drop.tail rfl]
    exact bind_token_of_ne (by simp)
  · rw [forByStmtRule, bind_token, bind_token, bind_exprRule hi hn.tail.tail rfl, bind_token,
      bind_exprRule ha hn.tail.tail.drop.tail rfl]
    exact bind_token_of_ne (by simp)

theorem ifStmtRule_run {c : ExprContext} (hc : c.Respects)
    (hn : EnoughFuel n (.kIf :: .lparen :: (c.tokens ++ .rparen :: ts))) :
    ifStmtRule n statement (.kIf :: .lparen :: (c.tokens ++ .rparen :: ts)) =
      (statement >>= fun t ↦ ifNext .kElse
        (statement >>= fun e ↦ pure (.ifElseStmt c t e)) (pure (.ifStmt c t))) ts := by
  rw [ifStmtRule, bind_token, bind_token, bind_exprRule hc hn.tail.tail rfl, bind_token]

theorem outputStmtRule_run {e : ExprContext} (he : e.Respects)
    (hn : EnoughFuel n (.kOutput :: (e.tokens ++ .semi :: rest))) :
    outputStmtRule n (.kOutput :: (e.tokens ++ .semi :: rest)) = [(.outputStmt e, rest)] := by
  rw [outputStmtRule, bind_token, bind_exprRule he hn.tail rfl, bind_token]
  rfl

theorem errorStmtRule_run {e : ExprContext} (he : e.Respects)
    (hn : EnoughFuel n (.kError :: (e.tokens ++ .semi :: rest))) :
    errorStmtRule n (.kError :: (e.tokens ++ .semi :: rest)) = [(.errorStmt e, rest)] := by
  rw [errorStmtRule, bind_token, bind_exprRule he hn.tail rfl, bind_token]
  rfl

/-- Behind a keyword, the alternatives that begin with an expression or a brace have no way. -/
theorem picks_statementRule {t : Token} (ht : t.OpensNoExpr) (hbrace : t ≠ .lbrace)
    {r : StatementContext × List Token}
    (h : Picks strict ((whileStmtRule n (statementRule n) <|> forByStmtRule n (statementRule n) <|>
      forRangeStmtRule n (statementRule n) <|> forInStmtRule n (statementRule n) <|>
      ifStmtRule n (statementRule n) <|> outputStmtRule n <|> errorStmtRule n) (t :: ts)) r) :
    Picks strict (statementRule (n + 1) (t :: ts)) r := by
  rw [statementRule]
  refine ((h.orElse' fun _ ↦ ?_).orElse' fun _ ↦ ?_).orElse' fun _ ↦ ?_
  · exact bind_exprRule_eq_nil ht
  · exact bind_exprRule_eq_nil ht
  · exact bind_token_of_ne hbrace

theorem picks_statementRule_if {r : StatementContext × List Token}
    (h : Picks strict (ifStmtRule n (statementRule n) (.kIf :: ts)) r) :
    Picks strict (statementRule (n + 1) (.kIf :: ts)) r := by
  refine picks_statementRule (t := .kIf) trivial (by simp) ?_
  have hne {β : Type} {f : Unit → Rule β} {t : Token} (ht : Token.kIf ≠ t) :
      (token t >>= f) (.kIf :: ts) = [] := bind_token_of_ne ht
  exact ((((h.orElse.orElse' fun _ ↦ hne (by simp)).orElse' fun _ ↦ hne (by simp)).orElse'
    fun _ ↦ hne (by simp)).orElse' fun _ ↦ hne (by simp))

theorem picks_statementRule_output {r : StatementContext × List Token}
    (h : Picks strict (outputStmtRule n (.kOutput :: ts)) r) :
    Picks strict (statementRule (n + 1) (.kOutput :: ts)) r := by
  refine picks_statementRule (t := .kOutput) trivial (by simp) ?_
  have hne {β : Type} {f : Unit → Rule β} {t : Token} (ht : Token.kOutput ≠ t) :
      (token t >>= f) (.kOutput :: ts) = [] := bind_token_of_ne ht
  exact (((((h.orElse.orElse' fun _ ↦ hne (by simp)).orElse' fun _ ↦ hne (by simp)).orElse'
    fun _ ↦ hne (by simp)).orElse' fun _ ↦ hne (by simp)).orElse' fun _ ↦ hne (by simp))

theorem picks_statementRule_error {r : StatementContext × List Token}
    (h : Picks strict (errorStmtRule n (.kError :: ts)) r) :
    Picks strict (statementRule (n + 1) (.kError :: ts)) r := by
  refine picks_statementRule (t := .kError) trivial (by simp) ?_
  have hne {β : Type} {f : Unit → Rule β} {t : Token} (ht : Token.kError ≠ t) :
      (token t >>= f) (.kError :: ts) = [] := bind_token_of_ne ht
  exact ((((((h.orElse' fun _ ↦ hne (by simp)).orElse' fun _ ↦ hne (by simp)).orElse'
    fun _ ↦ hne (by simp)).orElse' fun _ ↦ hne (by simp)).orElse' fun _ ↦ hne (by simp)).orElse'
    fun _ ↦ hne (by simp))

end Rules

theorem StatementContext.tokens_ne_nil (s : StatementContext) : s.tokens ≠ [] := by
  intro h
  refine s.head_ne (t := .rbrace) trivial [.rbrace] [] ?_
  rw [h]
  rfl

mutual

/-- A statement that makes the choices of the grammar is among the ways to read its tokens, and the
first one if it is plain. -/
theorem StatementContext.picks : ∀ (s : StatementContext) {strict : Prop} {n : ℕ} {rest : List Token},
    s.Respects → (strict → s.Plain) → (s.EndsOpen → rest.head? ≠ some .kElse) →
      EnoughFuel n (s.tokens ++ rest) → Picks strict (statementRule (n + 1) (s.tokens ++ rest)) (s, rest)
  | .blockStmt ss, strict, n, rest, h, hplain, _, hn => by
    simp only [StatementContext.tokens, List.cons_append, List.append_assoc, List.nil_append] at hn ⊢
    obtain ⟨m, rfl, hm⟩ := hn.sub
    rw [statementRule]
    refine Picks.orElse (Picks.bind (picks_token _) ?_)
    refine Picks.bind (StatementContext.picksList ss h hplain ⟨.rbrace, rest, rfl, trivial, by simp⟩ hm) ?_
    exact (picks_token _).bind picks_pure
  | .assignStmt l r, strict, n, rest, ⟨hl, hr⟩, hplain, _, hn => by
    simp only [StatementContext.tokens, List.cons_append, List.append_assoc, List.nil_append] at hn ⊢
    rw [statementRule]
    refine Picks.orElse' (Picks.orElse ?_) fun hs ↦ blockStmtRule_eq_nil (hplain hs)
    rw [assignStmtRule_run hl hr hn]
    exact picks_head
  | .updateStmt e op, strict, n, rest, h, hplain, _, hn => by
    simp only [StatementContext.tokens, List.cons_append, List.append_assoc, List.nil_append] at hn ⊢
    obtain ⟨hrun, hassign⟩ := updateStmtRule_run h op hn
    rw [statementRule]
    refine Picks.orElse' (Picks.orElse' (Picks.orElse ?_) fun _ ↦ hassign)
      fun hs ↦ blockStmtRule_eq_nil (hplain hs)
    rw [hrun]
    exact picks_head
  | .whileStmt c b, strict, n, rest, ⟨hc, hb⟩, hplain, hopen, hn => by
    simp only [StatementContext.tokens, List.cons_append, List.append_assoc] at hn ⊢
    refine picks_statementRule (t := .kWhile) trivial (by simp) (Picks.orElse ?_)
    rw [whileStmtRule_run hc hn]
    obtain ⟨m, rfl, hm⟩ := hn.sub
    exact (b.picks hb hplain hopen hm.tail.drop.tail.succ).bind picks_pure
  | .forByStmt i a z k b, strict, n, rest, ⟨hi, ha, hz, hk, hb⟩, hplain, hopen, hn => by
    simp only [StatementContext.tokens, List.cons_append, List.append_assoc] at hn ⊢
    refine picks_statementRule (t := .kFor) trivial (by simp) (Picks.orElse' (Picks.orElse ?_) fun _ ↦
      bind_token_of_ne (by simp))
    rw [forByStmtRule_run hi ha hz hk hn]
    obtain ⟨m, rfl, hm⟩ := hn.sub
    have hm := hm.tail.drop.tail.drop.tail.drop.tail.drop.tail
    exact (b.picks hb hplain hopen hm.succ).bind picks_pure
  | .forRangeStmt i a z b, strict, n, rest, ⟨hi, ha, hz, hb⟩, hplain, hopen, hn => by
    simp only [StatementContext.tokens, List.cons_append, List.append_assoc] at hn ⊢
    obtain ⟨hrun, hby⟩ := forRangeStmtRule_run (statementRule n) hi ha hz hn
    refine picks_statementRule (t := .kFor) trivial (by simp) (Picks.orElse' (Picks.orElse' (Picks.orElse ?_)
      fun _ ↦ hby) fun _ ↦ bind_token_of_ne (by simp))
    rw [hrun]
    obtain ⟨m, rfl, hm⟩ := hn.sub
    have hm := hm.tail.drop.tail.drop.tail.drop.tail
    exact (b.picks hb hplain hopen hm.succ).bind picks_pure
  | .forInStmt i a b, strict, n, rest, ⟨hi, ha, hb⟩, hplain, hopen, hn => by
    simp only [StatementContext.tokens, List.cons_append, List.append_assoc] at hn ⊢
    obtain ⟨hrun, hrange, hby⟩ := forInStmtRule_run (statementRule n) hi ha hn
    refine picks_statementRule (t := .kFor) trivial (by simp) (Picks.orElse' (Picks.orElse' (Picks.orElse'
      (Picks.orElse ?_) fun _ ↦ hrange) fun _ ↦ hby) fun _ ↦ bind_token_of_ne (by simp))
    rw [hrun]
    obtain ⟨m, rfl, hm⟩ := hn.sub
    exact (b.picks hb hplain hopen hm.tail.drop.tail.drop.tail.succ).bind picks_pure
  | .ifStmt c t, strict, n, rest, ⟨hc, ht⟩, hplain, hopen, hn => by
    simp only [StatementContext.tokens, List.cons_append, List.append_assoc] at hn ⊢
    refine picks_statementRule_if ?_
    rw [ifStmtRule_run hc hn]
    obtain ⟨m, rfl, hm⟩ := hn.sub
    -- nothing takes an `else` behind the statement, so nothing takes one behind its branch
    have helse := hopen trivial
    refine (t.picks ht hplain (fun _ ↦ helse) hm.tail.drop.tail.succ).bind ?_
    rw [ifNext_of_head? helse]
    exact picks_pure
  | .ifElseStmt c t e, strict, n, rest, ⟨hc, ht, hclosed, he⟩, hplain, hopen, hn => by
    simp only [StatementContext.tokens, List.cons_append, List.append_assoc] at hn ⊢
    refine picks_statementRule_if ?_
    rw [ifStmtRule_run hc hn]
    obtain ⟨m, rfl, hm⟩ := hn.sub
    have hm := hm.tail.drop.tail
    refine (t.picks ht (fun hs ↦ (hplain hs).1) (fun h ↦ absurd h hclosed) hm.succ).bind ?_
    refine Picks.ifNext ?_
    exact (e.picks he (fun hs ↦ (hplain hs).2) hopen hm.drop.tail.succ).bind picks_pure
  | .outputStmt e, strict, n, rest, h, _, _, hn => by
    simp only [StatementContext.tokens, List.cons_append, List.append_assoc, List.nil_append] at hn ⊢
    refine picks_statementRule_output ?_
    rw [outputStmtRule_run h hn]
    exact picks_head
  | .errorStmt e, strict, n, rest, h, _, _, hn => by
    simp only [StatementContext.tokens, List.cons_append, List.append_assoc, List.nil_append] at hn ⊢
    refine picks_statementRule_error ?_
    rw [errorStmtRule_run h hn]
    exact picks_head

/-- The same for the statements up to a token that begins none. -/
theorem StatementContext.picksList : ∀ (ss : List StatementContext) {strict : Prop} {n : ℕ}
    {rest : List Token}, StatementContext.RespectsList ss →
      (strict → StatementContext.PlainList ss) → (∃ t ts, rest = t :: ts ∧ t.OpensNoStatement ∧ t ≠ .kElse) →
      EnoughFuel n (StatementContext.tokensList ss ++ rest) →
      Picks strict (statementsRule (n + 2) (StatementContext.tokensList ss ++ rest)) (ss, rest)
  | [], strict, n, rest, _, _, ⟨t, ts, hrest, ht, _⟩, hn => by
    subst hrest
    rw [statementsRule]
    exact picks_pure.orElse' fun _ ↦ bind_eq_nil_of_eq_nil (statementRule_eq_nil ht)
  | s :: ss, strict, n, rest, ⟨hs, hss⟩, hplain, hrest, hn => by
    rw [StatementContext.tokensList, List.append_assoc] at hn ⊢
    rw [statementsRule]
    have hlt := List.length_pos_of_ne_nil s.tokens_ne_nil
    have hn' : ∃ m, n = m + 1 ∧ EnoughFuel m (StatementContext.tokensList ss ++ rest) := by
      unfold EnoughFuel at hn ⊢
      rw [List.length_append] at hn
      exact ⟨n - 1, by omega, by omega⟩
    refine Picks.orElse (Picks.bind (s.picks hs (fun h ↦ (hplain h).1) (fun _ ↦ ?_) hn) ?_)
    · -- no statement begins with an `else`
      intro heq
      obtain ⟨t, ts, rfl, -, ht⟩ := hrest
      cases ss with
      | nil => exact ht (Option.some.inj heq)
      | cons s' ss' =>
        rw [StatementContext.tokensList, List.append_assoc] at heq
        obtain ⟨ts', hts'⟩ := List.head?_eq_some_iff.1 heq
        exact s'.head_ne (t := .kElse) trivial _ ts' hts'
    · obtain ⟨m, rfl, hm⟩ := hn'
      exact (StatementContext.picksList ss hss (fun h ↦ (hplain h).2) hrest hm).bind picks_pure

end

/-! ### The else branches of a tree -/

/-- The statement with an `else` behind it, which belongs to the last `if` that has none. -/
theorem StatementContext.exists_attach {e : StatementContext} (he : e.Respects) :
    ∀ s : StatementContext, s.Respects → s.EndsOpen →
      ∃ s' : StatementContext, s'.Respects ∧ s'.tokens = s.tokens ++ .kElse :: e.tokens
  | .ifStmt c t, ⟨hc, ht⟩, _ => by
    by_cases hopen : t.EndsOpen
    · obtain ⟨t', ht', htokens⟩ := exists_attach he t ht hopen
      exact ⟨.ifStmt c t', ⟨hc, ht'⟩, by simp [StatementContext.tokens, htokens]⟩
    · exact ⟨.ifElseStmt c t e, ⟨hc, ht, hopen, he⟩, by simp [StatementContext.tokens]⟩
  | .ifElseStmt c t e', ⟨hc, ht, hclosed, he'⟩, hopen => by
    obtain ⟨s', hs', htokens⟩ := exists_attach he e' he' hopen
    exact ⟨.ifElseStmt c t s', ⟨hc, ht, hclosed, hs'⟩, by simp [StatementContext.tokens, htokens]⟩
  | .whileStmt c b, ⟨hc, hb⟩, hopen => by
    obtain ⟨b', hb', htokens⟩ := exists_attach he b hb hopen
    exact ⟨.whileStmt c b', ⟨hc, hb'⟩, by simp [StatementContext.tokens, htokens]⟩
  | .forByStmt i a z k b, ⟨hi, ha, hz, hk, hb⟩, hopen => by
    obtain ⟨b', hb', htokens⟩ := exists_attach he b hb hopen
    exact ⟨.forByStmt i a z k b', ⟨hi, ha, hz, hk, hb'⟩, by simp [StatementContext.tokens, htokens]⟩
  | .forRangeStmt i a z b, ⟨hi, ha, hz, hb⟩, hopen => by
    obtain ⟨b', hb', htokens⟩ := exists_attach he b hb hopen
    exact ⟨.forRangeStmt i a z b', ⟨hi, ha, hz, hb'⟩, by simp [StatementContext.tokens, htokens]⟩
  | .forInStmt i a b, ⟨hi, ha, hb⟩, hopen => by
    obtain ⟨b', hb', htokens⟩ := exists_attach he b hb hopen
    exact ⟨.forInStmt i a b', ⟨hi, ha, hb'⟩, by simp [StatementContext.tokens, htokens]⟩

mutual

/-- The tokens of every statement are those of one that makes the choices of the grammar. -/
theorem StatementContext.exists_respects :
    ∀ s : StatementContext, ∃ s' : StatementContext, s'.Respects ∧ s'.tokens = s.tokens
  | .blockStmt ss => by
    obtain ⟨ss', hss', htokens⟩ := StatementContext.exists_respectsList ss
    exact ⟨.blockStmt ss', hss', by simp only [StatementContext.tokens, htokens]⟩
  | .assignStmt l r => by
    obtain ⟨l', hl', hl⟩ := l.exists_respects
    obtain ⟨r', hr', hr⟩ := r.exists_respects
    exact ⟨.assignStmt l' r', ⟨hl', hr'⟩, by simp only [StatementContext.tokens, hl, hr]⟩
  | .updateStmt e op => by
    obtain ⟨e', he', he⟩ := e.exists_respects
    exact ⟨.updateStmt e' op, he', by simp only [StatementContext.tokens, he]⟩
  | .whileStmt c b => by
    obtain ⟨c', hc', hc⟩ := c.exists_respects
    obtain ⟨b', hb', hb⟩ := b.exists_respects
    exact ⟨.whileStmt c' b', ⟨hc', hb'⟩, by simp only [StatementContext.tokens, hc, hb]⟩
  | .forByStmt i a z k b => by
    obtain ⟨i', hi', hi⟩ := i.exists_respects
    obtain ⟨a', ha', ha⟩ := a.exists_respects
    obtain ⟨z', hz', hz⟩ := z.exists_respects
    obtain ⟨k', hk', hk⟩ := k.exists_respects
    obtain ⟨b', hb', hb⟩ := b.exists_respects
    exact ⟨.forByStmt i' a' z' k' b', ⟨hi', ha', hz', hk', hb'⟩,
      by simp only [StatementContext.tokens, hi, ha, hz, hk, hb]⟩
  | .forRangeStmt i a z b => by
    obtain ⟨i', hi', hi⟩ := i.exists_respects
    obtain ⟨a', ha', ha⟩ := a.exists_respects
    obtain ⟨z', hz', hz⟩ := z.exists_respects
    obtain ⟨b', hb', hb⟩ := b.exists_respects
    exact ⟨.forRangeStmt i' a' z' b', ⟨hi', ha', hz', hb'⟩,
      by simp only [StatementContext.tokens, hi, ha, hz, hb]⟩
  | .forInStmt i a b => by
    obtain ⟨i', hi', hi⟩ := i.exists_respects
    obtain ⟨a', ha', ha⟩ := a.exists_respects
    obtain ⟨b', hb', hb⟩ := b.exists_respects
    exact ⟨.forInStmt i' a' b', ⟨hi', ha', hb'⟩,
      by simp only [StatementContext.tokens, hi, ha, hb]⟩
  | .ifStmt c t => by
    obtain ⟨c', hc', hc⟩ := c.exists_respects
    obtain ⟨t', ht', ht⟩ := t.exists_respects
    exact ⟨.ifStmt c' t', ⟨hc', ht'⟩, by simp only [StatementContext.tokens, hc, ht]⟩
  | .ifElseStmt c t e => by
    obtain ⟨c', hc', hc⟩ := c.exists_respects
    obtain ⟨t', ht', ht⟩ := t.exists_respects
    obtain ⟨e', he', he⟩ := e.exists_respects
    by_cases hopen : t'.EndsOpen
    · -- the `else` moves into the branch
      obtain ⟨s, hs, htokens⟩ := exists_attach he' t' ht' hopen
      exact ⟨.ifStmt c' s, ⟨hc', hs⟩, by simp only [StatementContext.tokens, htokens, hc, ht, he]⟩
    · exact ⟨.ifElseStmt c' t' e', ⟨hc', ht', hopen, he'⟩,
        by simp only [StatementContext.tokens, hc, ht, he]⟩
  | .outputStmt e => by
    obtain ⟨e', he', he⟩ := e.exists_respects
    exact ⟨.outputStmt e', he', by simp only [StatementContext.tokens, he]⟩
  | .errorStmt e => by
    obtain ⟨e', he', he⟩ := e.exists_respects
    exact ⟨.errorStmt e', he', by simp only [StatementContext.tokens, he]⟩

theorem StatementContext.exists_respectsList : ∀ ss : List StatementContext,
    ∃ ss' : List StatementContext, StatementContext.RespectsList ss' ∧
      StatementContext.tokensList ss' = StatementContext.tokensList ss
  | [] => ⟨[], trivial, rfl⟩
  | s :: ss => by
    obtain ⟨s', hs', hs⟩ := s.exists_respects
    obtain ⟨ss', hss', hss⟩ := StatementContext.exists_respectsList ss
    exact ⟨s' :: ss', ⟨hs', hss'⟩, by simp only [StatementContext.tokensList, hs, hss]⟩

end

end Sipc
