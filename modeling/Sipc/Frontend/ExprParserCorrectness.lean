import Mathlib.Order.Lattice
import Sipc.Frontend.ExprParser

/-!
# What the expression parser accepts

The parser returns the trees that respect the levels of the alternatives: an operand is bare only where
no loop takes the next token first (`ExprContext.Respects`). It is sound (`parseExpr_sound`) and finds
every such tree (`settles_parseExpr`), so such a tree is determined by its tokens
(`ExprContext.Respects.ext`).
-/

set_option autoImplicit false
set_option relaxedAutoImplicit false

namespace Sipc

/-! ### Trees that respect the levels -/

/-- The least level of the operators that the loops at the left edge take. -/
def ExprContext.loopLevel : ExprContext → ℕ
  | .funAppExpr function _ => min 26 function.loopLevel
  | .accessExpr record _ => min 25 record.loopLevel
  | .arrayIndexingExpr arr _ => min 23 arr.loopLevel
  | .multiplicativeExpr _ left _ => min 17 left.loopLevel
  | .additiveExpr _ left _ => min 16 left.loopLevel
  | .relationalExpr _ left _ => min 15 left.loopLevel
  | .equalityExpr _ left _ => min 14 left.loopLevel
  | .ternaryExpr condition _ _ => min 13 condition.loopLevel
  | .nonShortCircuiting _ left _ => min 3 left.loopLevel
  | .boolOps _ left _ => min 2 left.loopLevel
  | _ => 27

/-- The least level of the loops that are open at the right edge: an operator of this level or a higher
one goes on inside. -/
def ExprContext.openLevel : ExprContext → ℕ
  | .deRefExpr ptr => min 24 ptr.openLevel
  | .negExpr arg => min 21 arg.openLevel
  | .refExpr var => min 20 var.openLevel
  | .arrayLenExpr ptr => min 19 ptr.openLevel
  | .notExpr arg => min 18 arg.openLevel
  | .allocExpr initializer => min 9 initializer.openLevel
  | .multiplicativeExpr _ _ right => min 18 right.openLevel
  | .additiveExpr _ _ right => min 17 right.openLevel
  | .relationalExpr _ _ right => min 16 right.openLevel
  | .equalityExpr _ _ right => min 15 right.openLevel
  | .ternaryExpr _ _ elseExpr => min 14 elseExpr.openLevel
  | .nonShortCircuiting _ _ right => min 4 right.openLevel
  | .boolOps _ _ right => min 3 right.openLevel
  | _ => 27

/-- The first token is a number. -/
def ExprContext.leadsWithNumber : ExprContext → Prop
  | .numExpr _ => True
  | .funAppExpr e _ | .accessExpr e _ | .arrayIndexingExpr e _ | .multiplicativeExpr _ e _
  | .additiveExpr _ e _ | .relationalExpr _ e _ | .equalityExpr _ e _ | .ternaryExpr e _ _
  | .nonShortCircuiting _ e _ | .boolOps _ e _ => e.leadsWithNumber
  | _ => False

/-- A binary alternative of the level is placed as the loops place it. -/
def RespectsBinary (k : ℕ) (left right : ExprContext) : Prop :=
  k < left.openLevel ∧ k < right.loopLevel

mutual

/-- Every operand has the levels that its place asks for. -/
def ExprContext.Respects : ExprContext → Prop
  | .funAppExpr function actuals =>
    26 < function.openLevel ∧ function.Respects ∧ ExprContext.RespectsList actuals
  | .accessExpr record _ => 25 < record.openLevel ∧ record.Respects
  | .deRefExpr ptr => 24 ≤ ptr.loopLevel ∧ ptr.Respects
  | .arrayIndexingExpr arr idx => 23 < arr.openLevel ∧ arr.Respects ∧ idx.Respects
  | .negNumber _ => True
  | .negExpr arg => 21 ≤ arg.loopLevel ∧ ¬ arg.leadsWithNumber ∧ arg.Respects
  | .refExpr var => 20 ≤ var.loopLevel ∧ var.Respects
  | .arrayLenExpr ptr => 19 ≤ ptr.loopLevel ∧ ptr.Respects
  | .notExpr arg => 18 ≤ arg.loopLevel ∧ arg.Respects
  | .multiplicativeExpr _ left right => RespectsBinary 17 left right ∧ left.Respects ∧ right.Respects
  | .additiveExpr _ left right => RespectsBinary 16 left right ∧ left.Respects ∧ right.Respects
  | .relationalExpr _ left right => RespectsBinary 15 left right ∧ left.Respects ∧ right.Respects
  | .equalityExpr _ left right => RespectsBinary 14 left right ∧ left.Respects ∧ right.Respects
  | .ternaryExpr condition thenExpr elseExpr =>
    RespectsBinary 13 condition elseExpr ∧ condition.Respects ∧ thenExpr.Respects ∧ elseExpr.Respects
  | .varExpr _ => True
  | .numExpr _ => True
  | .inputExpr => True
  | .allocExpr initializer => 9 ≤ initializer.loopLevel ∧ initializer.Respects
  | .nullExpr => True
  | .boolExpr _ => True
  | .recordRule fields => ExprContext.RespectsFields fields
  | .arrayLiteral elements => ExprContext.RespectsList elements
  | .arrayOfExpr e1 e2 => e1.Respects ∧ e2.Respects
  | .nonShortCircuiting _ left right => RespectsBinary 3 left right ∧ left.Respects ∧ right.Respects
  | .boolOps _ left right => RespectsBinary 2 left right ∧ left.Respects ∧ right.Respects
  | .parenExpr expr => expr.Respects

def ExprContext.RespectsList : List ExprContext → Prop
  | [] => True
  | e :: es => e.Respects ∧ ExprContext.RespectsList es

def ExprContext.RespectsFields : List FieldExprContext → Prop
  | [] => True
  | .mk _ initializer :: fs => initializer.Respects ∧ ExprContext.RespectsFields fs

end

/-! ### The alternatives of one kind together -/

/-- What the binary alternatives have in common. -/
structure IsBinary (op : Token) (k : ℕ) (mk : ExprContext → ExprContext → ExprContext) : Prop where
  context : binaryContext op = some (k, mk)
  level : op.loopLevel = some k
  le : k ≤ 17
  tokens : ∀ l r, (mk l r).tokens = l.tokens ++ op :: r.tokens
  loopLevel : ∀ l r, (mk l r).loopLevel = min k l.loopLevel
  openLevel : ∀ l r, (mk l r).openLevel = min (k + 1) r.openLevel
  leads : ∀ l r, (mk l r).leadsWithNumber = l.leadsWithNumber
  respects : ∀ l r, (mk l r).Respects ↔ RespectsBinary k l r ∧ l.Respects ∧ r.Respects

theorem binaryContext_multiplicative (op : OneOf [.mul, .div, .mod]) :
    binaryContext op.1 = some (17, .multiplicativeExpr op) := by
  obtain ⟨op, hop⟩ := op
  have h := hop
  simp only [List.mem_cons, List.not_mem_nil, or_false] at h
  rcases h with rfl | rfl | rfl <;> rfl

theorem binaryContext_additive (op : OneOf [.add, .sub]) :
    binaryContext op.1 = some (16, .additiveExpr op) := by
  obtain ⟨op, hop⟩ := op
  have h := hop
  simp only [List.mem_cons, List.not_mem_nil, or_false] at h
  rcases h with rfl | rfl <;> rfl

theorem binaryContext_relational (op : OneOf [.gt, .lte, .gte, .lt]) :
    binaryContext op.1 = some (15, .relationalExpr op) := by
  obtain ⟨op, hop⟩ := op
  have h := hop
  simp only [List.mem_cons, List.not_mem_nil, or_false] at h
  rcases h with rfl | rfl | rfl | rfl <;> rfl

theorem binaryContext_equality (op : OneOf [.eq, .ne]) :
    binaryContext op.1 = some (14, .equalityExpr op) := by
  obtain ⟨op, hop⟩ := op
  have h := hop
  simp only [List.mem_cons, List.not_mem_nil, or_false] at h
  rcases h with rfl | rfl <;> rfl

theorem binaryContext_nonShortCircuiting (op : OneOf [.lor, .land]) :
    binaryContext op.1 = some (3, .nonShortCircuiting op) := by
  obtain ⟨op, hop⟩ := op
  have h := hop
  simp only [List.mem_cons, List.not_mem_nil, or_false] at h
  rcases h with rfl | rfl <;> rfl

theorem binaryContext_boolOps (op : OneOf [.kAnd, .kOr]) :
    binaryContext op.1 = some (2, .boolOps op) := by
  obtain ⟨op, hop⟩ := op
  have h := hop
  simp only [List.mem_cons, List.not_mem_nil, or_false] at h
  rcases h with rfl | rfl <;> rfl

theorem isBinary_of_context {op : Token} {k : ℕ} {mk : ExprContext → ExprContext → ExprContext}
    (h : binaryContext op = some (k, mk)) : IsBinary op k mk := by
  cases op
  all_goals first
    | (cases h; done)
    | (cases h; exact ⟨rfl, rfl, by decide, fun _ _ ↦ rfl, fun _ _ ↦ rfl, fun _ _ ↦ rfl,
        fun _ _ ↦ rfl, fun _ _ ↦ Iff.rfl⟩)

/-- What the prefix alternatives have in common. -/
structure IsPrefix (op : Token) (q : ℕ) (mk : ExprContext → ExprContext) : Prop where
  context : prefixContext op = some (q, mk)
  le : q ≤ 24
  tokens : ∀ e, (mk e).tokens = op :: e.tokens
  loopLevel : ∀ e, (mk e).loopLevel = 27
  openLevel : ∀ e, (mk e).openLevel = min q e.openLevel
  leads : ∀ e, ¬ (mk e).leadsWithNumber
  respects : ∀ e, (mk e).Respects ↔ q ≤ e.loopLevel ∧ (op = .sub → ¬ e.leadsWithNumber) ∧ e.Respects

theorem isPrefix_of_context {op : Token} {q : ℕ} {mk : ExprContext → ExprContext}
    (h : prefixContext op = some (q, mk)) : IsPrefix op q mk := by
  cases op
  all_goals first
    | (cases h; done)
    | (cases h; exact ⟨rfl, by decide, fun _ ↦ rfl, fun _ ↦ rfl, fun _ ↦ rfl, fun _ h ↦ h,
        fun _ ↦ by simp [ExprContext.Respects]⟩)

/-! ### Soundness -/

/-- `t` was read from `ts` and respects the levels, and no loop in it takes the next token. -/
structure Reads (ts : List Token) (t : ExprContext) (rest : List Token) : Prop where
  tokens : ts = t.tokens ++ rest
  respects : t.Respects
  stops : ∀ k, nextLevel rest = some k → k < t.openLevel

/-- After a token that has to come next. -/
theorem exists_of_matchToken {α : Type} {t : Token} {ts : List Token} {f : List Token → Option α} {a : α}
    (h : (matchToken t ts >>= f) = some a) : ∃ ts', ts = t :: ts' ∧ f ts' = some a := by
  obtain ⟨ts₁, h₁, h₂⟩ := Option.bind_eq_some_iff.1 h
  cases ts with
  | nil => cases h₁
  | cons t' ts' =>
    rw [matchToken] at h₁
    split at h₁
    next heq =>
      cases h₁
      exact ⟨ts₁, by rw [heq], h₂⟩
    next => cases h₁

theorem loopLevel_le {op : Token} {k : ℕ} (h : op.loopLevel = some k) : k ≤ 26 := by
  cases op
  all_goals first
    | (cases h; done)
    | (cases h; decide)

theorem nextLevel_le {ts : List Token} {k : ℕ} (h : nextLevel ts = some k) : k ≤ 26 := by
  obtain ⟨op, -, hop⟩ := Option.bind_eq_some_iff.1 h
  exact loopLevel_le hop

/-- What `n` steps of the parser give was read. -/
structure SoundAt (n : ℕ) : Prop where
  expr : ∀ p ts t rest, p ≤ 27 → parseExpr n p ts = some (t, rest) →
    Reads ts t rest ∧ p ≤ t.loopLevel ∧ ∀ k, nextLevel rest = some k → k < p
  primary : ∀ ts t rest, parsePrimary n ts = some (t, rest) → Reads ts t rest ∧ t.loopLevel = 27
  operator : ∀ ts t rest, parseOperator n ts = some (t, rest) →
    (∀ x ts', ts ≠ .sub :: .number x :: ts') → Reads ts t rest ∧ t.loopLevel = 27
  array : ∀ es ts t rest, parseArray n es ts = some (t, rest) → ExprContext.RespectsList es →
    Reads (.lbracket :: commas (ExprContext.tokensList es) ++ ts) t rest ∧ t.loopLevel = 27
  suffixes : ∀ p t ts t' rest, parseSuffixes n p t ts = some (t', rest) → t.Respects →
    p ≤ t.loopLevel → (∀ k, nextLevel ts = some k → k < t.openLevel) →
    Reads (t.tokens ++ ts) t' rest ∧ p ≤ t'.loopLevel ∧ ∀ k, nextLevel rest = some k → k < p
  suffix : ∀ k t ts t' rest, parseSuffix n t ts = some (t', rest) → nextLevel ts = some k →
    t.Respects → k < t.openLevel → Reads (t.tokens ++ ts) t' rest ∧ t'.loopLevel = min k t.loopLevel
  exprs : ∀ ts es rest, parseExprs n ts = some (es, rest) →
    es ≠ [] ∧ ts = commas (ExprContext.tokensList es) ++ rest ∧ ExprContext.RespectsList es
  fields : ∀ ts fs rest, parseFields n ts = some (fs, rest) →
    fs ≠ [] ∧ ts = commas (ExprContext.tokensFields fs) ++ rest ∧ ExprContext.RespectsFields fs

theorem SoundAt.parseExpr {n p : ℕ} {ts rest : List Token} {t : ExprContext} (hs : SoundAt n)
    (hp : p ≤ 27) (h : parseExpr (n + 1) p ts = some (t, rest)) :
    Reads ts t rest ∧ p ≤ t.loopLevel ∧ ∀ k, nextLevel rest = some k → k < p := by
  rw [Sipc.parseExpr] at h
  obtain ⟨⟨e, ts₁⟩, h₁, h₂⟩ := Option.bind_eq_some_iff.1 h
  obtain ⟨hr, hl⟩ := hs.primary _ _ _ h₁
  have h₃ := hs.suffixes p e ts₁ t rest h₂ hr.respects (by omega) hr.stops
  rwa [← hr.tokens] at h₃

theorem SoundAt.parseExprs {n : ℕ} {ts rest : List Token} {es : List ExprContext} (hs : SoundAt n)
    (h : parseExprs (n + 1) ts = some (es, rest)) :
    es ≠ [] ∧ ts = commas (ExprContext.tokensList es) ++ rest ∧ ExprContext.RespectsList es := by
  rw [Sipc.parseExprs] at h
  obtain ⟨⟨e, ts₁⟩, h₁, h₂⟩ := Option.bind_eq_some_iff.1 h
  obtain ⟨hr, -⟩ := hs.expr 0 _ _ _ (by omega) h₁
  dsimp only at h₂
  split at h₂
  next ts₂ =>
    obtain ⟨⟨es', ts₃⟩, h₃, h₄⟩ := Option.bind_eq_some_iff.1 h₂
    obtain ⟨hne, htokens, hrespects⟩ := hs.exprs _ _ _ h₃
    cases h₄
    refine ⟨List.cons_ne_nil _ _, ?_, hr.respects, hrespects⟩
    cases es' with
    | nil => exact absurd rfl hne
    | cons e' es' =>
      rw [hr.tokens, htokens]
      simp [ExprContext.tokensList, commas]
  next =>
    cases h₂
    refine ⟨List.cons_ne_nil _ _, ?_, hr.respects, trivial⟩
    rw [hr.tokens]
    rfl

theorem SoundAt.parseFields {n : ℕ} {ts rest : List Token} {fs : List FieldExprContext}
    (hs : SoundAt n) (h : parseFields (n + 1) ts = some (fs, rest)) :
    fs ≠ [] ∧ ts = commas (ExprContext.tokensFields fs) ++ rest ∧ ExprContext.RespectsFields fs := by
  rw [Sipc.parseFields.eq_def] at h
  dsimp only at h
  split at h
  next n' x ts' heq =>
    cases heq
    obtain ⟨⟨e, ts₁⟩, h₁, h₂⟩ := Option.bind_eq_some_iff.1 h
    obtain ⟨hr, -⟩ := hs.expr 0 _ _ _ (by omega) h₁
    dsimp only at h₂
    split at h₂
    next ts₂ =>
      obtain ⟨⟨fs', ts₃⟩, h₃, h₄⟩ := Option.bind_eq_some_iff.1 h₂
      obtain ⟨hne, htokens, hrespects⟩ := hs.fields _ _ _ h₃
      cases h₄
      refine ⟨List.cons_ne_nil _ _, ?_, hr.respects, hrespects⟩
      cases fs' with
      | nil => exact absurd rfl hne
      | cons f fs' =>
        cases f
        rw [hr.tokens, htokens]
        simp [ExprContext.tokensFields, commas]
    next =>
      cases h₂
      refine ⟨List.cons_ne_nil _ _, ?_, hr.respects, trivial⟩
      rw [hr.tokens]
      rfl
  next => cases h

theorem exists_number_of_leads : ∀ {e : ExprContext}, e.leadsWithNumber →
    ∃ x ts, e.tokens = .number x :: ts
  | .numExpr x, _ => ⟨x, [], rfl⟩
  | .funAppExpr e _, h | .accessExpr e _, h | .arrayIndexingExpr e _, h | .multiplicativeExpr _ e _, h
  | .additiveExpr _ e _, h | .relationalExpr _ e _, h | .equalityExpr _ e _, h
  | .ternaryExpr e _ _, h | .nonShortCircuiting _ e _, h | .boolOps _ e _, h => by
    obtain ⟨x, ts, hx⟩ := exists_number_of_leads (e := e) h
    exact ⟨x, _, by rw [ExprContext.tokens, hx]; rfl⟩

theorem leafContext_reads {op : Token} {e : ExprContext} {rest : List Token}
    (h : leafContext op = some e) : Reads (op :: rest) e rest ∧ e.loopLevel = 27 := by
  cases op
  all_goals first
    | (cases h; done)
    | (cases h; exact ⟨⟨rfl, trivial, fun k hk ↦ Nat.lt_succ_of_le (nextLevel_le hk)⟩, rfl⟩)

/-- A tree that ends with a closing token. -/
theorem Reads.closed {ts rest : List Token} {t : ExprContext} (htokens : ts = t.tokens ++ rest)
    (hrespects : t.Respects) (hopen : t.openLevel = 27) : Reads ts t rest :=
  ⟨htokens, hrespects, fun k hk ↦ by rw [hopen]; exact Nat.lt_succ_of_le (nextLevel_le hk)⟩

theorem SoundAt.parseOperator {n : ℕ} {ts rest : List Token} {t : ExprContext} (hs : SoundAt n)
    (h : parseOperator (n + 1) ts = some (t, rest)) (hnum : ∀ x ts', ts ≠ .sub :: .number x :: ts') :
    Reads ts t rest ∧ t.loopLevel = 27 := by
  cases ts with
  | nil => cases h
  | cons op ts =>
    rw [Sipc.parseOperator] at h
    split at h
    next q mk hop =>
      obtain ⟨⟨e, ts₁⟩, h₁, h₂⟩ := Option.bind_eq_some_iff.1 h
      have hpre := isPrefix_of_context hop
      obtain ⟨hr, hl, hstop⟩ := hs.expr q _ _ _ (by have := hpre.le; omega) h₁
      cases h₂
      refine ⟨⟨?_, (hpre.respects e).2 ⟨hl, fun hsub hlead ↦ ?_, hr.respects⟩, fun k hk ↦ ?_⟩,
        hpre.loopLevel e⟩
      · rw [hpre.tokens, hr.tokens]
        rfl
      · obtain ⟨x, ts', hx⟩ := exists_number_of_leads hlead
        refine hnum x (ts' ++ rest) ?_
        rw [hsub, hr.tokens, hx]
        rfl
      · rw [hpre.openLevel]
        exact lt_min (hstop k hk) (hr.stops k hk)
    next =>
      obtain ⟨e, h₁, h₂⟩ := Option.bind_eq_some_iff.1 h
      cases h₂
      exact leafContext_reads h₁

theorem SoundAt.parseArray {n : ℕ} {es : List ExprContext} {ts rest : List Token} {t : ExprContext}
    (hs : SoundAt n) (h : parseArray (n + 1) es ts = some (t, rest))
    (hes : ExprContext.RespectsList es) :
    Reads (.lbracket :: commas (ExprContext.tokensList es) ++ ts) t rest ∧ t.loopLevel = 27 := by
  rw [Sipc.parseArray.eq_def] at h
  dsimp only at h
  split at h
  next => cases ‹_ = 0›
  next n' e1 ts₁ heq =>
    cases heq
    obtain ⟨⟨e2, ts₂⟩, h₁, h₂⟩ := Option.bind_eq_some_iff.1 h
    dsimp only at h₂
    obtain ⟨ts₃, hexpect, h₄⟩ := exists_of_matchToken h₂
    obtain ⟨hr, -⟩ := hs.expr 0 _ _ _ (by omega) h₁
    cases h₄
    refine ⟨.closed ?_ ⟨hes.1, hr.respects⟩ rfl, rfl⟩
    rw [hr.tokens, hexpect]
    simp [ExprContext.tokens, ExprContext.tokensList, commas]
  next hne =>
    obtain ⟨ts₂, hexpect, h₄⟩ := exists_of_matchToken h
    cases h₄
    refine ⟨.closed ?_ hes rfl, rfl⟩
    rw [hexpect]
    simp [ExprContext.tokens]

theorem SoundAt.parsePrimary {n : ℕ} {ts rest : List Token} {t : ExprContext} (hs : SoundAt n)
    (h : parsePrimary (n + 1) ts = some (t, rest)) : Reads ts t rest ∧ t.loopLevel = 27 := by
  rw [Sipc.parsePrimary.eq_def] at h
  dsimp only at h
  split at h
  next => cases ‹_ = 0›
  next n' x ts heq =>
    cases heq
    cases h
    exact ⟨.closed rfl trivial rfl, rfl⟩
  next n' ts heq =>
    cases heq
    obtain ⟨⟨e, ts₁⟩, h₁, h₂⟩ := Option.bind_eq_some_iff.1 h
    dsimp only at h₂
    obtain ⟨ts₂, hexpect, h₄⟩ := exists_of_matchToken h₂
    obtain ⟨hr, -⟩ := hs.expr 0 _ _ _ (by omega) h₁
    cases h₄
    refine ⟨.closed ?_ hr.respects rfl, rfl⟩
    rw [hr.tokens, hexpect]
    simp [ExprContext.tokens]
  next n' ts heq =>
    cases heq
    cases h
    exact ⟨.closed rfl trivial rfl, rfl⟩
  next n' ts _ heq =>
    cases heq
    obtain ⟨⟨fs, ts₁⟩, h₁, h₂⟩ := Option.bind_eq_some_iff.1 h
    dsimp only at h₂
    obtain ⟨ts₂, hexpect, h₄⟩ := exists_of_matchToken h₂
    obtain ⟨-, htokens, hrespects⟩ := hs.fields _ _ _ h₁
    cases h₄
    refine ⟨.closed ?_ hrespects rfl, rfl⟩
    rw [htokens, hexpect]
    simp [ExprContext.tokens]
  next n' ts heq =>
    cases heq
    cases h
    exact ⟨.closed rfl trivial rfl, rfl⟩
  next n' ts _ heq =>
    cases heq
    obtain ⟨⟨es, ts₁⟩, h₁, h₂⟩ := Option.bind_eq_some_iff.1 h
    obtain ⟨-, htokens, hrespects⟩ := hs.exprs _ _ _ h₁
    have h₃ := hs.array es ts₁ t rest h₂ hrespects
    rwa [List.cons_append, ← htokens] at h₃
  next n' heq hnum _ _ _ _ _ =>
    cases heq
    exact hs.operator _ t rest h fun x ts' ↦ hnum x ts'

theorem SoundAt.parseSuffix {n k : ℕ} {t t' : ExprContext} {ts rest : List Token}
    (hs : SoundAt n) (h : parseSuffix (n + 1) t ts = some (t', rest)) (hk : nextLevel ts = some k)
    (ht : t.Respects) (hlt : k < t.openLevel) :
    Reads (t.tokens ++ ts) t' rest ∧ t'.loopLevel = min k t.loopLevel := by
  rw [Sipc.parseSuffix.eq_def] at h
  dsimp only at h
  split at h
  next => cases ‹_ = 0›
  next n' ts heq =>
    cases heq
    cases h
    cases hk
    refine ⟨.closed ?_ ⟨hlt, ht, trivial⟩ rfl, rfl⟩
    simp [ExprContext.tokens, ExprContext.tokensList, commas]
  next n' ts _ heq =>
    cases heq
    obtain ⟨⟨es, ts₁⟩, h₁, h₂⟩ := Option.bind_eq_some_iff.1 h
    dsimp only at h₂
    obtain ⟨ts₂, hexpect, h₄⟩ := exists_of_matchToken h₂
    obtain ⟨-, htokens, hrespects⟩ := hs.exprs _ _ _ h₁
    cases h₄
    cases hk
    refine ⟨.closed ?_ ⟨hlt, ht, hrespects⟩ rfl, rfl⟩
    rw [htokens, hexpect]
    simp [ExprContext.tokens]
  next n' x ts heq =>
    cases heq
    cases h
    cases hk
    refine ⟨.closed ?_ ⟨hlt, ht⟩ rfl, rfl⟩
    simp [ExprContext.tokens]
  next n' ts heq =>
    cases heq
    obtain ⟨⟨e, ts₁⟩, h₁, h₂⟩ := Option.bind_eq_some_iff.1 h
    dsimp only at h₂
    obtain ⟨ts₂, hexpect, h₄⟩ := exists_of_matchToken h₂
    obtain ⟨hr, -⟩ := hs.expr 0 _ _ _ (by omega) h₁
    cases h₄
    cases hk
    refine ⟨.closed ?_ ⟨hlt, ht, hr.respects⟩ rfl, rfl⟩
    rw [hr.tokens, hexpect]
    simp [ExprContext.tokens]
  next n' ts heq =>
    cases heq
    obtain ⟨⟨e, ts₁⟩, h₁, h₂⟩ := Option.bind_eq_some_iff.1 h
    dsimp only at h₂
    obtain ⟨ts₂, hexpect, h₃⟩ := exists_of_matchToken h₂
    obtain ⟨⟨f, ts₃⟩, h₄, h₅⟩ := Option.bind_eq_some_iff.1 h₃
    obtain ⟨hr, -⟩ := hs.expr 0 _ _ _ (by omega) h₁
    obtain ⟨hr', hl', hstop'⟩ := hs.expr 14 _ _ _ (by omega) h₄
    cases h₅
    cases hk
    refine ⟨⟨?_, ⟨⟨hlt, hl'⟩, ht, hr.respects, hr'.respects⟩, fun k' hk' ↦ ?_⟩, rfl⟩
    · rw [hr.tokens, hexpect, hr'.tokens]
      simp [ExprContext.tokens]
    · exact lt_min (hstop' k' hk') (hr'.stops k' hk')
  next n' op ts _ _ _ _ _ heq =>
    cases heq
    obtain ⟨⟨k', mk⟩, h₁, h₂⟩ := Option.bind_eq_some_iff.1 h
    obtain ⟨⟨r, ts₁⟩, h₃, h₄⟩ := Option.bind_eq_some_iff.1 h₂
    have hbin := isBinary_of_context h₁
    cases hbin.level.symm.trans hk
    obtain ⟨hr, hl, hstop⟩ := hs.expr (k + 1) _ _ _ (by have := hbin.le; omega) h₃
    cases h₄
    refine ⟨⟨?_, (hbin.respects _ r).2 ⟨⟨hlt, hl⟩, ht, hr.respects⟩, fun k' hk' ↦ ?_⟩,
      hbin.loopLevel _ r⟩
    · rw [hbin.tokens, hr.tokens]
      simp
    · rw [hbin.openLevel]
      exact lt_min (hstop k' hk') (hr.stops k' hk')
  next => cases h

theorem SoundAt.parseSuffixes {n p : ℕ} {t t' : ExprContext} {ts rest : List Token}
    (hs : SoundAt n) (h : parseSuffixes (n + 1) p t ts = some (t', rest)) (ht : t.Respects)
    (hp : p ≤ t.loopLevel) (hstops : ∀ k, nextLevel ts = some k → k < t.openLevel) :
    Reads (t.tokens ++ ts) t' rest ∧ p ≤ t'.loopLevel ∧ ∀ k, nextLevel rest = some k → k < p := by
  rw [Sipc.parseSuffixes] at h
  split at h
  next hnone =>
    cases h
    exact ⟨⟨rfl, ht, hstops⟩, hp, fun k hk ↦ nomatch hnone.symm.trans hk⟩
  next k hk =>
    split at h
    next hlt =>
      cases h
      refine ⟨⟨rfl, ht, hstops⟩, hp, fun k' hk' ↦ ?_⟩
      cases hk.symm.trans hk'
      exact hlt
    next hge =>
      obtain ⟨⟨u, ts₁⟩, h₁, h₂⟩ := Option.bind_eq_some_iff.1 h
      obtain ⟨hr, hl⟩ := hs.suffix k t ts u ts₁ h₁ hk ht (hstops k hk)
      have h₃ := hs.suffixes p u ts₁ t' rest h₂ hr.respects (by omega) hr.stops
      rwa [← hr.tokens] at h₃

/-- The parser is sound, by induction on the number of steps. -/
theorem soundAt : ∀ n, SoundAt n
  | 0 =>
    { expr := fun _ _ _ _ _ h ↦ nomatch h
      primary := fun _ _ _ h ↦ nomatch h
      operator := fun _ _ _ h ↦ nomatch h
      array := fun _ _ _ _ h ↦ nomatch h
      suffixes := fun _ _ _ _ _ h ↦ nomatch h
      suffix := fun _ _ _ _ _ h ↦ nomatch h
      exprs := fun _ _ _ h ↦ nomatch h
      fields := fun _ _ _ h ↦ nomatch h }
  | n + 1 =>
    { expr := fun _ _ _ _ hp h ↦ (soundAt n).parseExpr hp h
      primary := fun _ _ _ h ↦ (soundAt n).parsePrimary h
      operator := fun _ _ _ h hnum ↦ (soundAt n).parseOperator h hnum
      array := fun _ _ _ _ h hes ↦ (soundAt n).parseArray h hes
      suffixes := fun _ _ _ _ _ h ht hp hstops ↦ (soundAt n).parseSuffixes h ht hp hstops
      suffix := fun _ _ _ _ _ h hk ht hlt ↦ (soundAt n).parseSuffix h hk ht hlt
      exprs := fun _ _ _ h ↦ (soundAt n).parseExprs h
      fields := fun _ _ _ h ↦ (soundAt n).parseFields h }

/-! ### Completeness -/

/-- With enough fuel the result is `a`. -/
def Settles {α : Type} (F : ℕ → Option α) (a : α) : Prop :=
  ∃ N, ∀ n, N ≤ n → F n = some a

section Settles

variable {α : Type} {F : ℕ → Option α} {a : α}

theorem Settles.exists_forall (h : Settles F a) : ∃ N, ∀ n, N ≤ n → F n = some a :=
  h

theorem Settles.unique {b : α} (h : Settles F a) (h' : Settles F b) : a = b := by
  obtain ⟨N, hN⟩ := h.exists_forall
  obtain ⟨M, hM⟩ := h'.exists_forall
  exact Option.some.inj ((hN (max N M) (le_max_left N M)).symm.trans (hM _ (le_max_right N M)))

theorem settles_of_succ (N : ℕ) (h : ∀ n, N ≤ n → F (n + 1) = some a) : Settles F a := by
  refine ⟨N + 1, fun n hn ↦ ?_⟩
  obtain ⟨m, rfl⟩ := Nat.exists_eq_add_of_le' (Nat.le_trans (Nat.le_add_left 1 N) hn)
  exact h m (by omega)

end Settles

theorem matchToken_cons (t : Token) (ts : List Token) : matchToken t (t :: ts) = some ts :=
  if_pos rfl

/-- The loop ends where the next token has a level below `p`, or none. -/
theorem settles_parseSuffixes_stop {p : ℕ} {t : ExprContext} {ts : List Token}
    (h : ∀ k, nextLevel ts = some k → k < p) : Settles (parseSuffixes · p t ts) (t, ts) := by
  refine settles_of_succ 0 fun n _ ↦ ?_
  rw [parseSuffixes]
  cases hk : nextLevel ts with
  | none => rfl
  | some k => exact if_pos (h k hk)

/-- A round of the loop, and the rest of it. -/
theorem settles_parseSuffixes {p k : ℕ} {t u : ExprContext} {ts ts' : List Token}
    {r : ExprContext × List Token} (hk : nextLevel ts = some k) (hp : p ≤ k)
    (h : Settles (parseSuffix · t ts) (u, ts')) (hr : Settles (parseSuffixes · p u ts') r) :
    Settles (parseSuffixes · p t ts) r := by
  obtain ⟨N, hN⟩ := h.exists_forall
  obtain ⟨M, hM⟩ := hr.exists_forall
  refine settles_of_succ (max N M) fun n hn ↦ ?_
  rw [parseSuffixes, hk]
  dsimp only
  rw [if_neg (Nat.not_lt.2 hp), hN n (le_trans (le_max_left N M) hn)]
  exact hM n (le_trans (le_max_right N M) hn)

theorem settles_parseExpr {p : ℕ} {t : ExprContext} {ts ts' : List Token}
    {r : ExprContext × List Token} (h : Settles (parsePrimary · ts) (t, ts'))
    (hr : Settles (parseSuffixes · p t ts') r) : Settles (parseExpr · p ts) r := by
  obtain ⟨N, hN⟩ := h.exists_forall
  obtain ⟨M, hM⟩ := hr.exists_forall
  refine settles_of_succ (max N M) fun n hn ↦ ?_
  rw [parseExpr, hN n (le_trans (le_max_left N M) hn)]
  exact hM n (le_trans (le_max_right N M) hn)

theorem settles_prefix {op : Token} {q : ℕ} {mk : ExprContext → ExprContext} {e : ExprContext}
    {ts rest : List Token} (hop : prefixContext op = some (q, mk))
    (hnum : op = .sub → ∀ x ts', ts ≠ .number x :: ts') (h : Settles (parseExpr · q ts) (e, rest)) :
    Settles (parsePrimary · (op :: ts)) (mk e, rest) := by
  obtain ⟨N, hN⟩ := h.exists_forall
  refine settles_of_succ (N + 1) fun n hn ↦ ?_
  obtain ⟨m, rfl⟩ := Nat.exists_eq_add_of_le' (Nat.le_trans (Nat.le_add_left 1 N) hn)
  rw [parsePrimary]
  · rw [parseOperator, hop]
    dsimp only
    rw [hN m (by omega)]
    rfl
  · rintro x ts' ⟨⟩
    exact hnum rfl x ts' rfl
  all_goals rintro _ ⟨⟩
  all_goals cases hop

theorem settles_leaf {op : Token} {e : ExprContext} {ts : List Token} (h : leafContext op = some e) :
    Settles (parsePrimary · (op :: ts)) (e, ts) := by
  refine settles_of_succ 1 fun n hn ↦ ?_
  obtain ⟨m, rfl⟩ := Nat.exists_eq_add_of_le' hn
  rw [parsePrimary]
  · have hpre : prefixContext op = none := by
      cases op
      all_goals first
        | rfl
        | cases h
    rw [parseOperator, hpre, h]
    rfl
  · rintro x ts' ⟨⟩
    cases h
  all_goals rintro _ ⟨⟩
  all_goals cases h

theorem settles_parenExpr {e : ExprContext} {ts rest : List Token}
    (h : Settles (parseExpr · 0 ts) (e, .rparen :: rest)) :
    Settles (parsePrimary · (.lparen :: ts)) (.parenExpr e, rest) := by
  obtain ⟨N, hN⟩ := h.exists_forall
  refine settles_of_succ N fun n hn ↦ ?_
  rw [parsePrimary, hN n hn]
  rfl

theorem settles_recordRule {fs : List FieldExprContext} {ts rest : List Token}
    (h : Settles (parseFields · ts) (fs, .rbrace :: rest)) (hne : ∀ ts', ts ≠ .rbrace :: ts') :
    Settles (parsePrimary · (.lbrace :: ts)) (.recordRule fs, rest) := by
  obtain ⟨N, hN⟩ := h.exists_forall
  refine settles_of_succ N fun n hn ↦ ?_
  rw [parsePrimary, hN n hn]
  · rfl
  · exact fun ts' ↦ hne ts'

theorem settles_bracket {es : List ExprContext} {t : ExprContext} {ts ts' rest : List Token}
    (h : Settles (parseExprs · ts) (es, ts')) (h' : Settles (parseArray · es ts') (t, rest))
    (hne : ∀ ts'', ts ≠ .rbracket :: ts'') :
    Settles (parsePrimary · (.lbracket :: ts)) (t, rest) := by
  obtain ⟨N, hN⟩ := h.exists_forall
  obtain ⟨M, hM⟩ := h'.exists_forall
  refine settles_of_succ (max N M) fun n hn ↦ ?_
  rw [parsePrimary, hN n (le_trans (le_max_left N M) hn)]
  · exact hM n (le_trans (le_max_right N M) hn)
  · exact fun ts'' ↦ hne ts''

theorem settles_arrayLiteral {es : List ExprContext} {rest : List Token} :
    Settles (parseArray · es (.rbracket :: rest)) (.arrayLiteral es, rest) := by
  refine settles_of_succ 0 fun n _ ↦ ?_
  rw [parseArray, matchToken_cons]
  · rfl
  · rintro e1 ts' - ⟨⟩

theorem settles_arrayOfExpr {e1 e2 : ExprContext} {ts rest : List Token}
    (h : Settles (parseExpr · 0 ts) (e2, .rbracket :: rest)) :
    Settles (parseArray · [e1] (.kOf :: ts)) (.arrayOfExpr e1 e2, rest) := by
  obtain ⟨N, hN⟩ := h.exists_forall
  refine settles_of_succ N fun n hn ↦ ?_
  rw [parseArray, hN n hn]
  rfl

theorem settles_exprs_singleton {e : ExprContext} {ts rest : List Token}
    (h : Settles (parseExpr · 0 ts) (e, rest)) (hrest : ∀ ts', rest ≠ .comma :: ts') :
    Settles (parseExprs · ts) ([e], rest) := by
  obtain ⟨N, hN⟩ := h.exists_forall
  refine settles_of_succ N fun n hn ↦ ?_
  rw [parseExprs, hN n hn]
  rcases rest with _ | ⟨t, ts'⟩
  · rfl
  · cases t with
    | comma => exact absurd rfl (hrest ts')
    | _ => rfl

theorem settles_exprs_cons {e : ExprContext} {es : List ExprContext} {ts ts' rest : List Token}
    (h : Settles (parseExpr · 0 ts) (e, .comma :: ts')) (h' : Settles (parseExprs · ts') (es, rest)) :
    Settles (parseExprs · ts) (e :: es, rest) := by
  obtain ⟨N, hN⟩ := h.exists_forall
  obtain ⟨M, hM⟩ := h'.exists_forall
  refine settles_of_succ (max N M) fun n hn ↦ ?_
  rw [parseExprs, hN n (le_trans (le_max_left N M) hn)]
  change (parseExprs n ts' >>= fun x ↦ some (e :: x.1, x.2)) = _
  rw [hM n (le_trans (le_max_right N M) hn)]
  rfl

theorem settles_fields_singleton {x : Identifier} {e : ExprContext} {ts rest : List Token}
    (h : Settles (parseExpr · 0 ts) (e, rest)) (hrest : ∀ ts', rest ≠ .comma :: ts') :
    Settles (parseFields · (.identifier x :: .colon :: ts)) ([.mk x e], rest) := by
  obtain ⟨N, hN⟩ := h.exists_forall
  refine settles_of_succ N fun n hn ↦ ?_
  rw [parseFields, hN n hn]
  rcases rest with _ | ⟨t, ts'⟩
  · rfl
  · cases t with
    | comma => exact absurd rfl (hrest ts')
    | _ => rfl

theorem settles_fields_cons {x : Identifier} {e : ExprContext} {fs : List FieldExprContext}
    {ts ts' rest : List Token} (h : Settles (parseExpr · 0 ts) (e, .comma :: ts'))
    (h' : Settles (parseFields · ts') (fs, rest)) :
    Settles (parseFields · (.identifier x :: .colon :: ts)) (.mk x e :: fs, rest) := by
  obtain ⟨N, hN⟩ := h.exists_forall
  obtain ⟨M, hM⟩ := h'.exists_forall
  refine settles_of_succ (max N M) fun n hn ↦ ?_
  rw [parseFields, hN n (le_trans (le_max_left N M) hn)]
  change (parseFields n ts' >>= fun y ↦ some (.mk x e :: y.1, y.2)) = _
  rw [hM n (le_trans (le_max_right N M) hn)]
  rfl

theorem settles_funAppExpr_nil {f : ExprContext} {rest : List Token} :
    Settles (parseSuffix · f (.lparen :: .rparen :: rest)) (.funAppExpr f [], rest) :=
  settles_of_succ 0 fun n _ ↦ by rw [parseSuffix]; rfl

theorem settles_funAppExpr {f : ExprContext} {es : List ExprContext} {ts rest : List Token}
    (h : Settles (parseExprs · ts) (es, .rparen :: rest)) (hne : ∀ ts', ts ≠ .rparen :: ts') :
    Settles (parseSuffix · f (.lparen :: ts)) (.funAppExpr f es, rest) := by
  obtain ⟨N, hN⟩ := h.exists_forall
  refine settles_of_succ N fun n hn ↦ ?_
  rw [parseSuffix, hN n hn]
  · rfl
  · exact fun ts' ↦ hne ts'

theorem settles_accessExpr {e : ExprContext} {x : Identifier} {rest : List Token} :
    Settles (parseSuffix · e (.dot :: .identifier x :: rest)) (.accessExpr e x, rest) :=
  settles_of_succ 0 fun n _ ↦ by rw [parseSuffix]; rfl

theorem settles_arrayIndexingExpr {e i : ExprContext} {ts rest : List Token}
    (h : Settles (parseExpr · 0 ts) (i, .rbracket :: rest)) :
    Settles (parseSuffix · e (.lbracket :: ts)) (.arrayIndexingExpr e i, rest) := by
  obtain ⟨N, hN⟩ := h.exists_forall
  refine settles_of_succ N fun n hn ↦ ?_
  rw [parseSuffix, hN n hn]
  rfl

theorem settles_ternaryExpr {c e f : ExprContext} {ts ts' rest : List Token}
    (h : Settles (parseExpr · 0 ts) (e, .colon :: ts'))
    (h' : Settles (parseExpr · 14 ts') (f, rest)) :
    Settles (parseSuffix · c (.question :: ts)) (.ternaryExpr c e f, rest) := by
  obtain ⟨N, hN⟩ := h.exists_forall
  obtain ⟨M, hM⟩ := h'.exists_forall
  refine settles_of_succ (max N M) fun n hn ↦ ?_
  rw [parseSuffix, hN n (le_trans (le_max_left N M) hn)]
  change (parseExpr n 14 ts' >>= fun y ↦ some (ExprContext.ternaryExpr c e y.1, y.2)) = _
  rw [hM n (le_trans (le_max_right N M) hn)]
  rfl

theorem settles_binary {op : Token} {k : ℕ} {mk : ExprContext → ExprContext → ExprContext}
    {l r : ExprContext} {ts rest : List Token} (hop : IsBinary op k mk)
    (h : Settles (parseExpr · (k + 1) ts) (r, rest)) :
    Settles (parseSuffix · l (op :: ts)) (mk l r, rest) := by
  obtain ⟨N, hN⟩ := h.exists_forall
  refine settles_of_succ N fun n hn ↦ ?_
  rw [parseSuffix]
  · rw [hop.context]
    change (parseExpr n (k + 1) ts >>= fun y ↦ some (mk l y.1, y.2)) = _
    rw [hN n hn]
    rfl
  all_goals intros
  all_goals subst_vars
  all_goals cases hop.context

/-- The first token of an expression. -/
theorem exists_tokens_cons : ∀ e : ExprContext, ∃ t ts, e.tokens = t :: ts ∧
    t ≠ .rparen ∧ t ≠ .rbracket ∧ (∀ x, t = .number x → e.leadsWithNumber)
  | .funAppExpr e _ | .accessExpr e _ | .arrayIndexingExpr e _ | .multiplicativeExpr _ e _
  | .additiveExpr _ e _ | .relationalExpr _ e _ | .equalityExpr _ e _ | .ternaryExpr e _ _
  | .nonShortCircuiting _ e _ | .boolOps _ e _ => by
    obtain ⟨t, ts, he, h₁, h₂, h₃⟩ := exists_tokens_cons e
    exact ⟨t, _, by rw [ExprContext.tokens, he]; rfl, h₁, h₂, h₃⟩
  | .deRefExpr _ | .negNumber _ | .negExpr _ | .refExpr _ | .arrayLenExpr _ | .notExpr _
  | .varExpr _ | .inputExpr | .allocExpr _ | .nullExpr | .recordRule _ | .arrayLiteral _
  | .arrayOfExpr _ _ | .parenExpr _ => ⟨_, _, rfl, nofun, nofun, nofun⟩
  | .numExpr _ => ⟨_, _, rfl, nofun, nofun, fun _ _ ↦ trivial⟩
  | .boolExpr ⟨op, hop⟩ => by
    refine ⟨op, [], rfl, ?_⟩
    have h : op = .kTrue ∨ op = .kFalse := by simpa using hop
    rcases h with rfl | rfl <;> exact ⟨nofun, nofun, nofun⟩

theorem first_ne {e : ExprContext} {t : Token} {ts : List Token} (h : e.tokens = t :: ts) :
    t ≠ .rparen ∧ t ≠ .rbracket := by
  obtain ⟨t', ts', h', h₁, h₂, -⟩ := exists_tokens_cons e
  cases h.symm.trans h'
  exact ⟨h₁, h₂⟩

theorem commas_cons_ne {e : ExprContext} {tss : List (List Token)} {rest : List Token} {a : Token}
    (h : ∀ t ts, e.tokens = t :: ts → t ≠ a) :
    ∀ ts', commas (e.tokens :: tss) ++ rest ≠ a :: ts' := by
  intro ts' heq
  obtain ⟨t, ts, he, -⟩ := exists_tokens_cons e
  cases tss with
  | nil =>
    rw [commas, he] at heq
    exact h t ts he (List.cons.inj heq).1
  | cons _ _ =>
    rw [commas, he] at heq
    exact h t ts he (List.cons.inj heq).1

/-- The parser finds the tree, and goes on with the loop. -/
abbrev Finds (t : ExprContext) : Prop :=
  ∀ p rest r, p ≤ t.loopLevel → (∀ k, nextLevel rest = some k → k < t.openLevel) →
    Settles (parseSuffixes · p t rest) r → Settles (parseExpr · p (t.tokens ++ rest)) r

/-- A tree that does not begin with an expression. -/
theorem finds_of_primary {t : ExprContext}
    (h : ∀ rest, (∀ k, nextLevel rest = some k → k < t.openLevel) →
      Settles (parsePrimary · (t.tokens ++ rest)) (t, rest)) : Finds t :=
  fun _ rest _ _ hstops hr ↦ settles_parseExpr (h rest hstops) hr

/-- A tree that begins with an expression. -/
theorem finds_of_suffix {t l : ExprContext} {k : ℕ} (op : Token) (ts : List Token) (hl : Finds l)
    (htokens : t.tokens = l.tokens ++ op :: ts) (hop : op.loopLevel = some k)
    (hk : k < l.openLevel) (hlevel : t.loopLevel = min k l.loopLevel)
    (h : ∀ rest, (∀ k', nextLevel rest = some k' → k' < t.openLevel) →
      Settles (parseSuffix · l (op :: ts ++ rest)) (t, rest)) : Finds t := by
  intro p rest r hp hstops hr
  have hnext : nextLevel (op :: ts ++ rest) = some k := hop
  rw [htokens, List.append_assoc]
  refine hl p _ r (by omega) (fun _ hk' ↦ ?_)
    (settles_parseSuffixes hnext (by omega) (h rest hstops) hr)
  cases hnext.symm.trans hk'
  exact hk

/-- A whole operand. -/
theorem Finds.settles {t : ExprContext} (h : Finds t) {p : ℕ} {rest : List Token}
    (hp : p ≤ t.loopLevel) (hstops : ∀ k, nextLevel rest = some k → k < t.openLevel ∧ k < p) :
    Settles (parseExpr · p (t.tokens ++ rest)) (t, rest) :=
  h p rest _ hp (fun k hk ↦ (hstops k hk).1) (settles_parseSuffixes_stop fun _ hk ↦ (hstops _ hk).2)

/-- An operand before a token that ends an expression. -/
theorem Finds.settles_zero {t : ExprContext} (h : Finds t) {rest : List Token}
    (hrest : nextLevel rest = none) : Settles (parseExpr · 0 (t.tokens ++ rest)) (t, rest) :=
  h.settles (Nat.zero_le _) fun _ hk ↦ nomatch hrest.symm.trans hk

theorem finds_prefix (op : Token) {q : ℕ} {mk : ExprContext → ExprContext} {e : ExprContext}
    (hop : prefixContext op = some (q, mk)) (he : Finds e) (hr : (mk e).Respects) :
    Finds (mk e) := by
  have hpre := isPrefix_of_context hop
  obtain ⟨hq, hlead, -⟩ := (hpre.respects e).1 hr
  refine finds_of_primary fun rest hstops ↦ ?_
  rw [hpre.tokens, List.cons_append]
  refine settles_prefix hop (fun hsub x ts' heq ↦ ?_) (he.settles hq fun k hk ↦ ?_)
  · obtain ⟨t, ts, hte, -, -, hnum⟩ := exists_tokens_cons e
    rw [hte] at heq
    exact hlead hsub (hnum x (List.cons.inj heq).1)
  · have hlt := hstops k hk
    rw [hpre.openLevel] at hlt
    omega

theorem finds_leaf {op : Token} {e : ExprContext} (hop : leafContext op = some e)
    (htokens : e.tokens = [op]) : Finds e :=
  finds_of_primary fun rest _ ↦ by
    rw [htokens]
    exact settles_leaf hop

theorem finds_binary {op : Token} {k : ℕ} {mk : ExprContext → ExprContext → ExprContext}
    {l r : ExprContext} (hop : IsBinary op k mk) (hl : Finds l) (hr : Finds r)
    (h : RespectsBinary k l r) : Finds (mk l r) := by
  refine finds_of_suffix op _ hl (hop.tokens l r) hop.level h.1 (hop.loopLevel l r) fun rest hstops ↦ ?_
  refine settles_binary hop (hr.settles h.2 fun k' hk' ↦ ?_)
  have hlt := hstops k' hk'
  rw [hop.openLevel] at hlt
  omega

mutual

/-- The parser finds every tree that respects the levels, by induction on the tree. -/
theorem ExprContext.Respects.finds : ∀ {t : ExprContext}, t.Respects → Finds t
  | .funAppExpr f [], ⟨h, hf, _⟩ =>
    finds_of_suffix .lparen [.rparen] hf.finds (by simp [ExprContext.tokens, ExprContext.tokensList, commas]) rfl h rfl
      fun _ _ ↦ settles_funAppExpr_nil
  | .funAppExpr f (e :: es), ⟨h, hf, hes⟩ => by
    refine finds_of_suffix .lparen (commas (ExprContext.tokensList (e :: es)) ++ [.rparen]) hf.finds
      (by simp [ExprContext.tokens]) rfl h rfl fun rest _ ↦ ?_
    rw [List.cons_append, List.append_assoc]
    exact settles_funAppExpr (respectsList_finds hes (List.cons_ne_nil e es) rfl nofun)
      (commas_cons_ne fun t ts het ↦ (first_ne het).1)
  | .accessExpr e _, ⟨h, he⟩ =>
    finds_of_suffix .dot _ he.finds rfl rfl h rfl fun _ _ ↦ settles_accessExpr
  | .deRefExpr e, hr => finds_prefix .mul rfl (hr.2).finds hr
  | .arrayIndexingExpr arr idx, ⟨h, harr, hidx⟩ =>
    finds_of_suffix .lbracket (idx.tokens ++ [.rbracket]) harr.finds (by simp [ExprContext.tokens]) rfl h rfl
      fun rest _ ↦ by
        rw [List.cons_append, List.append_assoc]
        exact settles_arrayIndexingExpr (hidx.finds.settles_zero rfl)
  | .negNumber _, _ =>
    finds_of_primary fun _ _ ↦ settles_of_succ 0 fun n _ ↦ rfl
  | .negExpr e, hr => finds_prefix .sub rfl (hr.2.2).finds hr
  | .refExpr e, hr => finds_prefix .land rfl (hr.2).finds hr
  | .arrayLenExpr e, hr => finds_prefix .hash rfl (hr.2).finds hr
  | .notExpr e, hr => finds_prefix .kNot rfl (hr.2).finds hr
  | .multiplicativeExpr op _ _, ⟨h, hl, hr⟩ =>
    finds_binary (isBinary_of_context (binaryContext_multiplicative op)) hl.finds hr.finds h
  | .additiveExpr op _ _, ⟨h, hl, hr⟩ =>
    finds_binary (isBinary_of_context (binaryContext_additive op)) hl.finds hr.finds h
  | .relationalExpr op _ _, ⟨h, hl, hr⟩ =>
    finds_binary (isBinary_of_context (binaryContext_relational op)) hl.finds hr.finds h
  | .equalityExpr op _ _, ⟨h, hl, hr⟩ =>
    finds_binary (isBinary_of_context (binaryContext_equality op)) hl.finds hr.finds h
  | .ternaryExpr c e f, ⟨h, hc, he, hf⟩ => by
    refine finds_of_suffix .question (e.tokens ++ .colon :: f.tokens) hc.finds (by simp [ExprContext.tokens]) rfl h.1
      rfl fun rest hstops ↦ ?_
    rw [List.cons_append, List.append_assoc]
    refine settles_ternaryExpr (he.finds.settles_zero rfl) (hf.finds.settles h.2 fun k hk ↦ ?_)
    have hlt : k < min 14 f.openLevel := hstops k hk
    omega
  | .varExpr _, _ => finds_leaf rfl rfl
  | .numExpr _, _ => finds_leaf rfl rfl
  | .inputExpr, _ => finds_leaf rfl rfl
  | .allocExpr e, hr => finds_prefix .kAlloc rfl (hr.2).finds hr
  | .nullExpr, _ => finds_leaf rfl rfl
  | .boolExpr ⟨op, hop⟩, _ => by
    have h : op = .kTrue ∨ op = .kFalse := by simpa using hop
    rcases h with rfl | rfl <;> exact finds_leaf rfl rfl
  | .recordRule [], _ =>
    finds_of_primary fun _ _ ↦ settles_of_succ 0 fun n _ ↦ rfl
  | .recordRule (.mk x e :: fs), hfs =>
    finds_of_primary fun rest _ ↦ by
      rw [ExprContext.tokens, List.append_assoc, List.cons_append]
      refine settles_recordRule (respectsFields_finds hfs (List.cons_ne_nil _ fs) rfl nofun) ?_
      rcases fs with _ | ⟨⟨x', e'⟩, fs⟩ <;> nofun
  | .arrayLiteral [], _ =>
    finds_of_primary fun _ _ ↦ settles_of_succ 0 fun n _ ↦ rfl
  | .arrayLiteral (e :: es), hes =>
    finds_of_primary fun rest _ ↦ by
      rw [ExprContext.tokens, List.append_assoc, List.cons_append]
      exact settles_bracket (respectsList_finds hes (List.cons_ne_nil e es) rfl nofun)
        settles_arrayLiteral (commas_cons_ne fun t ts het ↦ (first_ne het).2)
  | .arrayOfExpr e1 e2, ⟨h1, h2⟩ =>
    finds_of_primary fun rest _ ↦ by
      have h : Settles (parseExprs · (e1.tokens ++ .kOf :: (e2.tokens ++ .rbracket :: rest)))
          ([e1], .kOf :: (e2.tokens ++ .rbracket :: rest)) :=
        settles_exprs_singleton (h1.finds.settles_zero rfl) nofun
      simp only [ExprContext.tokens, List.append_assoc, List.cons_append, List.nil_append]
      refine settles_bracket h (settles_arrayOfExpr (h2.finds.settles_zero rfl)) fun ts' heq ↦ ?_
      obtain ⟨t, ts, het, -⟩ := exists_tokens_cons e1
      rw [het] at heq
      exact (first_ne het).2 (List.cons.inj heq).1
  | .nonShortCircuiting op _ _, ⟨h, hl, hr⟩ =>
    finds_binary (isBinary_of_context (binaryContext_nonShortCircuiting op)) hl.finds hr.finds h
  | .boolOps op _ _, ⟨h, hl, hr⟩ =>
    finds_binary (isBinary_of_context (binaryContext_boolOps op)) hl.finds hr.finds h
  | .parenExpr e, hr =>
    finds_of_primary fun rest _ ↦ by
      rw [ExprContext.tokens, List.append_assoc, List.cons_append]
      have he : e.Respects := hr
      exact settles_parenExpr (he.finds.settles_zero rfl)

theorem respectsList_finds : ∀ {es : List ExprContext} {rest : List Token},
    ExprContext.RespectsList es → es ≠ [] → nextLevel rest = none →
    (∀ ts', rest ≠ .comma :: ts') →
    Settles (parseExprs · (commas (ExprContext.tokensList es) ++ rest)) (es, rest)
  | [], _, _, h, _, _ => absurd rfl h
  | [e], _, ⟨he, _⟩, _, hrest, hne =>
    settles_exprs_singleton (he.finds.settles_zero hrest) hne
  | e :: e' :: es, _, ⟨he, hes⟩, _, hrest, hne => by
    rw [ExprContext.tokensList, ExprContext.tokensList, commas, List.append_assoc, List.cons_append]
    exact settles_exprs_cons (he.finds.settles_zero rfl)
      (respectsList_finds hes (List.cons_ne_nil _ _) hrest hne)

theorem respectsFields_finds : ∀ {fs : List FieldExprContext} {rest : List Token},
    ExprContext.RespectsFields fs → fs ≠ [] → nextLevel rest = none →
    (∀ ts', rest ≠ .comma :: ts') →
    Settles (parseFields · (commas (ExprContext.tokensFields fs) ++ rest)) (fs, rest)
  | [], _, _, h, _, _ => absurd rfl h
  | [.mk _ e], _, ⟨he, _⟩, _, hrest, hne =>
    settles_fields_singleton (he.finds.settles_zero hrest) hne
  | .mk _ e :: .mk _ _ :: fs, _, ⟨he, hfs⟩, _, hrest, hne => by
    rw [ExprContext.tokensFields, ExprContext.tokensFields, commas, List.append_assoc,
      List.cons_append]
    exact settles_fields_cons (he.finds.settles_zero rfl)
      (respectsFields_finds hfs (List.cons_ne_nil _ _) hrest hne)

end

/-- A tree that respects the levels is the one that is read from its tokens. -/
theorem ExprContext.Respects.settles {t : ExprContext} (h : t.Respects) :
    Settles (parseExpr · 0 t.tokens) (t, []) := by
  have hfinds := h.finds.settles_zero (show nextLevel [] = none from rfl)
  rwa [List.append_nil] at hfinds

theorem ExprContext.Respects.ext {t u : ExprContext} (h : t.Respects) (h' : u.Respects)
    (htokens : t.tokens = u.tokens) : t = u := by
  have hu := h'.settles
  rw [← htokens] at hu
  exact (Prod.mk.inj (h.settles.unique hu)).1

/-- Whatever the parser returns for all of the tokens respects the levels. -/
theorem parseExpr_sound {n : ℕ} {ts : List Token} {t : ExprContext}
    (h : parseExpr n 0 ts = some (t, [])) : ts = t.tokens ∧ t.Respects := by
  obtain ⟨hr, -⟩ := (soundAt n).expr 0 ts t [] (by omega) h
  exact ⟨by rw [hr.tokens, List.append_nil], hr.respects⟩

end Sipc
