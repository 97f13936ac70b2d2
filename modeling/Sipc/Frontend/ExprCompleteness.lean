import Sipc.Frontend.ExprParserCorrectness

/-!
# Every expression of the grammar is read

The rule `expr` is ambiguous, and the levels choose one tree for a sequence of tokens. No sequence is
lost by this: the tokens of any tree are those of a tree that respects the levels
(`ExprContext.exists_respects`), so the parser reads exactly the expressions of the grammar. A tree is
rearranged by appending one round of the loop after the other at its right edge (`IsRound.push`).
-/

set_option autoImplicit false
set_option relaxedAutoImplicit false

namespace Sipc

/-- One round of the loop at a level: it adds the tokens behind the expression that it is given. -/
structure IsRound (k : ℕ) (mk : ExprContext → ExprContext) (ts : List Token) : Prop where
  le : k ≤ 26
  tokens : ∀ t, (mk t).tokens = t.tokens ++ ts
  loopLevel : ∀ t, (mk t).loopLevel = min k t.loopLevel
  respects : ∀ t, t.Respects → k < t.openLevel → (mk t).Respects

theorem isRound_funAppExpr {es : List ExprContext} (h : ExprContext.RespectsList es) :
    IsRound 26 (.funAppExpr · es) (.lparen :: commas (ExprContext.tokensList es) ++ [.rparen]) where
  le := le_rfl
  tokens _ := List.append_assoc _ _ _
  loopLevel _ := rfl
  respects _ ht hopen := ⟨hopen, ht, h⟩

theorem isRound_accessExpr (x : Identifier) : IsRound 25 (.accessExpr · x) [.dot, .identifier x] where
  le := by decide
  tokens _ := rfl
  loopLevel _ := rfl
  respects _ ht hopen := ⟨hopen, ht⟩

theorem isRound_arrayIndexingExpr {i : ExprContext} (h : i.Respects) :
    IsRound 23 (.arrayIndexingExpr · i) (.lbracket :: i.tokens ++ [.rbracket]) where
  le := by decide
  tokens _ := List.append_assoc _ _ _
  loopLevel _ := rfl
  respects _ ht hopen := ⟨hopen, ht, h⟩

theorem isRound_ternaryExpr {e f : ExprContext} (he : e.Respects) (hf : f.Respects)
    (hlevel : 13 < f.loopLevel) :
    IsRound 13 (.ternaryExpr · e f) (.question :: e.tokens ++ .colon :: f.tokens) where
  le := by decide
  tokens _ := List.append_assoc _ _ _
  loopLevel _ := rfl
  respects _ ht hopen := ⟨⟨hopen, hlevel⟩, ht, he, hf⟩

theorem IsBinary.isRound {op : Token} {k : ℕ} {mk : ExprContext → ExprContext → ExprContext}
    (hop : IsBinary op k mk) {r : ExprContext} (hr : r.Respects) (hlevel : k < r.loopLevel) :
    IsRound k (mk · r) (op :: r.tokens) where
  le := hop.le.trans (by decide)
  tokens t := hop.tokens t r
  loopLevel t := hop.loopLevel t r
  respects t ht hopen := (hop.respects t r).2 ⟨⟨hopen, hlevel⟩, ht, hr⟩

/-- The tree with the tokens of a round appended. Where the right edge is open at the level of the
round, it goes on inside, and the level of the tree stays. -/
structure Pushed (k : ℕ) (ts : List Token) (t t' : ExprContext) : Prop where
  tokens : t'.tokens = t.tokens ++ ts
  respects : t'.Respects
  loopLevel : t'.loopLevel = if k < t.openLevel then min k t.loopLevel else t.loopLevel

theorem leadsWithNumber_iff {e : ExprContext} :
    e.leadsWithNumber ↔ ∃ x ts, e.tokens = .number x :: ts := by
  constructor
  · exact exists_number_of_leads
  · rintro ⟨x, ts, h⟩
    obtain ⟨t, ts', htokens, -, -, hnumber⟩ := exists_tokens_cons e
    rw [h, List.cons.injEq] at htokens
    exact hnumber x htokens.1.symm

theorem Pushed.leads_iff {k : ℕ} {ts : List Token} {t t' : ExprContext} (h : Pushed k ts t t') :
    t'.leadsWithNumber ↔ t.leadsWithNumber := by
  obtain ⟨a, as, htokens, -⟩ := exists_tokens_cons t
  rw [leadsWithNumber_iff, leadsWithNumber_iff, h.tokens, htokens]
  simp

section Push

variable {k : ℕ} {ts : List Token}

/-- Where the level of a part is at least `q`, it still is after a round that goes on inside. -/
theorem Pushed.le_loopLevel {q : ℕ} {e e' : ExprContext} (h : Pushed k ts e e') (hq : q ≤ e.loopLevel)
    (hk : ¬ k < min q e.openLevel) : q ≤ e'.loopLevel := by
  have hlevel := h.loopLevel
  split at hlevel <;> omega

theorem Pushed.ofPrefix {op : Token} {q : ℕ} {mk : ExprContext → ExprContext}
    (hop : IsPrefix op q mk) {e e' : ExprContext} (h : Pushed k ts e e') (he : (mk e).Respects)
    (hk : ¬ k < (mk e).openLevel) : Pushed k ts (mk e) (mk e') := by
  obtain ⟨hlevel, hnumber, -⟩ := (hop.respects e).1 he
  refine ⟨?_, (hop.respects e').2 ⟨h.le_loopLevel hlevel ?_, fun hsub ↦ ?_, h.respects⟩, ?_⟩
  · rw [hop.tokens, hop.tokens, h.tokens, List.cons_append]
  · rwa [hop.openLevel] at hk
  · rw [h.leads_iff]
    exact hnumber hsub
  · rw [if_neg hk, hop.loopLevel, hop.loopLevel]

theorem Pushed.ofBinary {op : Token} {j : ℕ} {mk : ExprContext → ExprContext → ExprContext}
    (hop : IsBinary op j mk) {l r r' : ExprContext} (h : Pushed k ts r r') (hr : (mk l r).Respects)
    (hk : ¬ k < (mk l r).openLevel) : Pushed k ts (mk l r) (mk l r') := by
  obtain ⟨⟨hopen, hlevel⟩, hl, -⟩ := (hop.respects l r).1 hr
  have hle : j + 1 ≤ r'.loopLevel := h.le_loopLevel hlevel (by rwa [hop.openLevel] at hk)
  refine ⟨?_, (hop.respects l r').2 ⟨⟨hopen, hle⟩, hl, h.respects⟩, ?_⟩
  · rw [hop.tokens, hop.tokens, h.tokens, List.append_assoc, List.cons_append]
  · rw [if_neg hk, hop.loopLevel, hop.loopLevel]

theorem Pushed.ofTernary {c e f f' : ExprContext} (h : Pushed k ts f f')
    (hr : (ExprContext.ternaryExpr c e f).Respects)
    (hk : ¬ k < (ExprContext.ternaryExpr c e f).openLevel) :
    Pushed k ts (.ternaryExpr c e f) (.ternaryExpr c e f') := by
  obtain ⟨⟨hopen, hlevel⟩, hc, he, -⟩ := hr
  refine ⟨?_, ⟨⟨hopen, h.le_loopLevel hlevel hk⟩, hc, he, h.respects⟩, ?_⟩
  · simp only [ExprContext.tokens, h.tokens, List.append_assoc, List.cons_append]
  · rw [if_neg hk]
    rfl

/-- Where the right edge is not open at the level, the round goes around the whole tree. -/
theorem IsRound.around {mk : ExprContext → ExprContext} (h : IsRound k mk ts) {t : ExprContext}
    (ht : t.Respects) (hk : k < t.openLevel) : Pushed k ts t (mk t) :=
  ⟨h.tokens t, h.respects t ht hk, by rw [if_pos hk, h.loopLevel]⟩

theorem IsRound.push_unary {mk : ExprContext → ExprContext} (h : IsRound k mk ts) (op : Token)
    {q : ℕ} {mk' : ExprContext → ExprContext} (hop : prefixContext op = some (q, mk'))
    {e : ExprContext} (he : (mk' e).Respects) (ih : e.Respects → ∃ e', Pushed k ts e e') :
    ∃ t', Pushed k ts (mk' e) t' := by
  have hunary := isPrefix_of_context hop
  by_cases hk : k < (mk' e).openLevel
  · exact ⟨_, h.around he hk⟩
  · obtain ⟨e', he'⟩ := ih ((hunary.respects e).1 he).2.2
    exact ⟨_, he'.ofPrefix hunary he hk⟩

theorem IsRound.push_binary {mk : ExprContext → ExprContext} (h : IsRound k mk ts) {op : Token}
    {j : ℕ} {mk' : ExprContext → ExprContext → ExprContext} (hop : binaryContext op = some (j, mk'))
    {l r : ExprContext} (hr : (mk' l r).Respects) (ih : r.Respects → ∃ r', Pushed k ts r r') :
    ∃ t', Pushed k ts (mk' l r) t' := by
  have hbinary := isBinary_of_context hop
  by_cases hk : k < (mk' l r).openLevel
  · exact ⟨_, h.around hr hk⟩
  · obtain ⟨r', hr'⟩ := ih ((hbinary.respects l r).1 hr).2.2
    exact ⟨_, hr'.ofBinary hbinary hr hk⟩

/-- A round can be appended to every tree that respects the levels: the right edge is followed down to
the first part that is not open at its level. -/
theorem IsRound.push {mk : ExprContext → ExprContext} (h : IsRound k mk ts) :
    ∀ {t : ExprContext}, t.Respects → ∃ t', Pushed k ts t t'
  | .funAppExpr _ _, ht | .accessExpr _ _, ht | .arrayIndexingExpr _ _, ht | .negNumber _, ht
  | .varExpr _, ht | .numExpr _, ht | .inputExpr, ht | .nullExpr, ht | .boolExpr _, ht
  | .recordRule _, ht | .arrayLiteral _, ht | .arrayOfExpr _ _, ht | .parenExpr _, ht =>
    ⟨_, h.around ht (Nat.lt_succ_of_le h.le)⟩
  | .deRefExpr _, ht => h.push_unary .mul rfl ht h.push
  | .negExpr _, ht => h.push_unary .sub rfl ht h.push
  | .refExpr _, ht => h.push_unary .land rfl ht h.push
  | .arrayLenExpr _, ht => h.push_unary .hash rfl ht h.push
  | .notExpr _, ht => h.push_unary .kNot rfl ht h.push
  | .allocExpr _, ht => h.push_unary .kAlloc rfl ht h.push
  | .multiplicativeExpr op _ _, ht => h.push_binary (binaryContext_multiplicative op) ht h.push
  | .additiveExpr op _ _, ht => h.push_binary (binaryContext_additive op) ht h.push
  | .relationalExpr op _ _, ht => h.push_binary (binaryContext_relational op) ht h.push
  | .equalityExpr op _ _, ht => h.push_binary (binaryContext_equality op) ht h.push
  | .nonShortCircuiting op _ _, ht => h.push_binary (binaryContext_nonShortCircuiting op) ht h.push
  | .boolOps op _ _, ht => h.push_binary (binaryContext_boolOps op) ht h.push
  | .ternaryExpr c e f, ht => by
    by_cases hk : k < (ExprContext.ternaryExpr c e f).openLevel
    · exact ⟨_, h.around ht hk⟩
    · obtain ⟨f', hf'⟩ := h.push ht.2.2.2
      exact ⟨_, hf'.ofTernary ht hk⟩

end Push

/-! ### Rearranging a tree -/

/-- The tokens of some rounds. -/
def AreRounds (tss : List (List Token)) : Prop :=
  ∀ ts ∈ tss, ∃ k mk, IsRound k mk ts

/-- Rounds can be appended one after the other. -/
theorem AreRounds.push : ∀ {tss : List (List Token)}, AreRounds tss → ∀ {t : ExprContext},
    t.Respects → ∃ t' : ExprContext, t'.Respects ∧ t'.tokens = t.tokens ++ tss.flatten
  | [], _, t, ht => ⟨t, ht, (List.append_nil _).symm⟩
  | ts :: tss, h, t, ht => by
    obtain ⟨⟨k, mk, hround⟩, htss⟩ := List.forall_mem_cons.1 h
    obtain ⟨t₁, ht₁⟩ := hround.push ht
    obtain ⟨t₂, ht₂, htokens⟩ := AreRounds.push htss ht₁.respects
    exact ⟨t₂, ht₂, by rw [htokens, ht₁.tokens, List.flatten_cons, List.append_assoc]⟩

/-- A tree taken apart at its left edge: the primary expression there and the rounds around it. -/
structure Unrolled (t head : ExprContext) (tss : List (List Token)) : Prop where
  respects : head.Respects
  loopLevel : head.loopLevel = 27
  rounds : AreRounds tss
  tokens : t.tokens = head.tokens ++ tss.flatten

theorem Unrolled.snoc {l t head : ExprContext} {tss : List (List Token)} {k : ℕ}
    {mk : ExprContext → ExprContext} {ts : List Token} (h : Unrolled l head tss)
    (hround : IsRound k mk ts) (ht : mk l = t) : Unrolled t head (tss ++ [ts]) := by
  refine ⟨h.respects, h.loopLevel, fun ts' hts' ↦ ?_, ?_⟩
  · rcases List.mem_append.1 hts' with hts' | hts'
    · exact h.rounds ts' hts'
    · rw [List.mem_singleton.1 hts']
      exact ⟨k, mk, hround⟩
  · rw [← ht, hround.tokens, h.tokens]
    simp

theorem unrolled_self {t : ExprContext} (h : t.Respects) (hlevel : t.loopLevel = 27) :
    Unrolled t t [] :=
  ⟨h, hlevel, List.forall_mem_nil _, (List.append_nil _).symm⟩

theorem exists_unrolled_binary {op : Token} {k : ℕ} {mk : ExprContext → ExprContext → ExprContext}
    (hop : binaryContext op = some (k, mk)) {l r : ExprContext} (h : (mk l r).Respects)
    (ih : l.Respects → ∃ head tss, Unrolled l head tss) :
    ∃ head tss, Unrolled (mk l r) head tss := by
  have hbinary := isBinary_of_context hop
  obtain ⟨⟨-, hlevel⟩, hl, hr⟩ := (hbinary.respects l r).1 h
  obtain ⟨head, tss, hhead⟩ := ih hl
  exact ⟨head, _, hhead.snoc (hbinary.isRound hr hlevel) rfl⟩

theorem ExprContext.Respects.exists_unrolled :
    ∀ {t : ExprContext}, t.Respects → ∃ head tss, Unrolled t head tss
  | .deRefExpr _, h | .negNumber _, h | .negExpr _, h | .refExpr _, h | .arrayLenExpr _, h
  | .notExpr _, h | .varExpr _, h | .numExpr _, h | .inputExpr, h | .allocExpr _, h | .nullExpr, h
  | .boolExpr _, h | .recordRule _, h | .arrayLiteral _, h | .arrayOfExpr _ _, h
  | .parenExpr _, h => ⟨_, _, unrolled_self h rfl⟩
  | .funAppExpr _ _, ⟨_, hf, hes⟩ => by
    obtain ⟨head, tss, hhead⟩ := hf.exists_unrolled
    exact ⟨head, _, hhead.snoc (isRound_funAppExpr hes) rfl⟩
  | .accessExpr _ x, ⟨_, hr⟩ => by
    obtain ⟨head, tss, hhead⟩ := hr.exists_unrolled
    exact ⟨head, _, hhead.snoc (isRound_accessExpr x) rfl⟩
  | .arrayIndexingExpr _ _, ⟨_, ha, hi⟩ => by
    obtain ⟨head, tss, hhead⟩ := ha.exists_unrolled
    exact ⟨head, _, hhead.snoc (isRound_arrayIndexingExpr hi) rfl⟩
  | .ternaryExpr _ _ _, ⟨⟨_, hlevel⟩, hc, he, hf⟩ => by
    obtain ⟨head, tss, hhead⟩ := hc.exists_unrolled
    exact ⟨head, _, hhead.snoc (isRound_ternaryExpr he hf hlevel) rfl⟩
  | .multiplicativeExpr op _ _, h =>
    exists_unrolled_binary (binaryContext_multiplicative op) h exists_unrolled
  | .additiveExpr op _ _, h => exists_unrolled_binary (binaryContext_additive op) h exists_unrolled
  | .relationalExpr op _ _, h =>
    exists_unrolled_binary (binaryContext_relational op) h exists_unrolled
  | .equalityExpr op _ _, h => exists_unrolled_binary (binaryContext_equality op) h exists_unrolled
  | .nonShortCircuiting op _ _, h =>
    exists_unrolled_binary (binaryContext_nonShortCircuiting op) h exists_unrolled
  | .boolOps op _ _, h => exists_unrolled_binary (binaryContext_boolOps op) h exists_unrolled

/-- The tree has the tokens of a tree that respects the levels. -/
def ExprContext.Rearranges (e : ExprContext) : Prop :=
  ∃ t : ExprContext, t.Respects ∧ t.tokens = e.tokens

theorem IsRound.rearranges {k : ℕ} {mk : ExprContext → ExprContext} {ts : List Token}
    (h : IsRound k mk ts) {e t : ExprContext} (he : e.Rearranges) (ht : t.tokens = e.tokens ++ ts) :
    t.Rearranges := by
  obtain ⟨e', he', htokens⟩ := he
  obtain ⟨t', ht'⟩ := h.push he'
  exact ⟨t', ht'.respects, by rw [ht'.tokens, htokens, ht]⟩

/-- The rounds around the left edge of a right operand become rounds around the whole. -/
theorem Unrolled.rearranges {l r head t : ExprContext} {tss : List (List Token)}
    (hr : Unrolled r head tss) (hl : l.Rearranges) {k : ℕ} {mk : ExprContext → ExprContext}
    {ts : List Token} (h : IsRound k mk (ts ++ head.tokens))
    (ht : t.tokens = l.tokens ++ (ts ++ r.tokens)) : t.Rearranges := by
  obtain ⟨l', hl', htokens⟩ := hl
  obtain ⟨t₁, ht₁⟩ := h.push hl'
  obtain ⟨t₂, ht₂, htokens₂⟩ := hr.rounds.push ht₁.respects
  refine ⟨t₂, ht₂, ?_⟩
  rw [htokens₂, ht₁.tokens, htokens, ht, hr.tokens]
  simp only [List.append_assoc]

theorem rearranges_binary {op : Token} {k : ℕ} {mk : ExprContext → ExprContext → ExprContext}
    (hop : binaryContext op = some (k, mk)) {l r : ExprContext} (hl : l.Rearranges)
    (hr : r.Rearranges) : (mk l r).Rearranges := by
  have hbinary := isBinary_of_context hop
  obtain ⟨r', hr', htokens⟩ := hr
  obtain ⟨head, tss, hhead⟩ := hr'.exists_unrolled
  have hlevel : k < head.loopLevel := by
    rw [hhead.loopLevel]
    exact Nat.lt_of_le_of_lt hbinary.le (by decide)
  have hround : IsRound k (mk · head) ([op] ++ head.tokens) := hbinary.isRound hhead.respects hlevel
  refine hhead.rearranges hl hround ?_
  rw [hbinary.tokens, htokens]
  rfl

theorem rearranges_unary (op : Token) {q : ℕ} {mk : ExprContext → ExprContext}
    (hop : prefixContext op = some (q, mk)) {e : ExprContext} (he : e.Rearranges) :
    (mk e).Rearranges := by
  have hunary := isPrefix_of_context hop
  obtain ⟨e', he', htokens⟩ := he
  obtain ⟨head, tss, hhead⟩ := he'.exists_unrolled
  -- a minus sign before a number is part of the number
  obtain ⟨t, ht, htokens₁⟩ : ∃ t : ExprContext, t.Respects ∧ t.tokens = op :: head.tokens := by
    by_cases hnumber : op = .sub ∧ head.leadsWithNumber
    · obtain ⟨rfl, hnumber⟩ := hnumber
      have hlevel := hhead.loopLevel
      cases head <;> simp only [ExprContext.leadsWithNumber, ExprContext.loopLevel] at hnumber hlevel
      case numExpr x => exact ⟨.negNumber x, trivial, rfl⟩
      all_goals omega
    · refine ⟨mk head, (hunary.respects head).2 ⟨?_, fun hsub hleads ↦ hnumber ⟨hsub, hleads⟩,
        hhead.respects⟩, hunary.tokens head⟩
      rw [hhead.loopLevel]
      exact hunary.le.trans (by decide)
  obtain ⟨t', ht', htokens₂⟩ := hhead.rounds.push ht
  refine ⟨t', ht', ?_⟩
  rw [htokens₂, htokens₁, hunary.tokens, ← htokens, hhead.tokens, List.cons_append]

mutual

/-- The tokens of every tree are those of a tree that respects the levels. -/
theorem ExprContext.exists_respects : ∀ e : ExprContext, e.Rearranges
  | .funAppExpr f es => by
    obtain ⟨es', hes', htokens⟩ := exists_respectsList es
    exact (isRound_funAppExpr hes').rearranges f.exists_respects
      (by rw [ExprContext.tokens, htokens, List.append_assoc])
  | .accessExpr r x => (isRound_accessExpr x).rearranges r.exists_respects rfl
  | .arrayIndexingExpr a i => by
    obtain ⟨i', hi', htokens⟩ := i.exists_respects
    exact (isRound_arrayIndexingExpr hi').rearranges a.exists_respects
      (by rw [ExprContext.tokens, htokens, List.append_assoc])
  | .ternaryExpr c e f => by
    obtain ⟨e', he', htokens⟩ := e.exists_respects
    obtain ⟨f', hf', htokens'⟩ := f.exists_respects
    obtain ⟨head, tss, hhead⟩ := hf'.exists_unrolled
    have hlevel : 13 < head.loopLevel := by
      rw [hhead.loopLevel]
      decide
    have hround : IsRound 13 (.ternaryExpr · e' head)
        (.question :: e'.tokens ++ [.colon] ++ head.tokens) := by
      simpa using isRound_ternaryExpr he' hhead.respects hlevel
    refine hhead.rearranges c.exists_respects hround ?_
    simp [ExprContext.tokens, htokens, htokens']
  | .deRefExpr e => rearranges_unary .mul rfl e.exists_respects
  | .negExpr e => rearranges_unary .sub rfl e.exists_respects
  | .refExpr e => rearranges_unary .land rfl e.exists_respects
  | .arrayLenExpr e => rearranges_unary .hash rfl e.exists_respects
  | .notExpr e => rearranges_unary .kNot rfl e.exists_respects
  | .allocExpr e => rearranges_unary .kAlloc rfl e.exists_respects
  | .multiplicativeExpr op l r =>
    rearranges_binary (binaryContext_multiplicative op) l.exists_respects r.exists_respects
  | .additiveExpr op l r =>
    rearranges_binary (binaryContext_additive op) l.exists_respects r.exists_respects
  | .relationalExpr op l r =>
    rearranges_binary (binaryContext_relational op) l.exists_respects r.exists_respects
  | .equalityExpr op l r =>
    rearranges_binary (binaryContext_equality op) l.exists_respects r.exists_respects
  | .nonShortCircuiting op l r =>
    rearranges_binary (binaryContext_nonShortCircuiting op) l.exists_respects r.exists_respects
  | .boolOps op l r =>
    rearranges_binary (binaryContext_boolOps op) l.exists_respects r.exists_respects
  | .negNumber x => ⟨.negNumber x, trivial, rfl⟩
  | .varExpr x => ⟨.varExpr x, trivial, rfl⟩
  | .numExpr x => ⟨.numExpr x, trivial, rfl⟩
  | .inputExpr => ⟨.inputExpr, trivial, rfl⟩
  | .nullExpr => ⟨.nullExpr, trivial, rfl⟩
  | .boolExpr op => ⟨.boolExpr op, trivial, rfl⟩
  | .recordRule fs => by
    obtain ⟨fs', hfs', htokens⟩ := exists_respectsFields fs
    exact ⟨.recordRule fs', hfs', by simp only [ExprContext.tokens, htokens]⟩
  | .arrayLiteral es => by
    obtain ⟨es', hes', htokens⟩ := exists_respectsList es
    exact ⟨.arrayLiteral es', hes', by simp only [ExprContext.tokens, htokens]⟩
  | .arrayOfExpr a b => by
    obtain ⟨a', ha', htokens⟩ := a.exists_respects
    obtain ⟨b', hb', htokens'⟩ := b.exists_respects
    exact ⟨.arrayOfExpr a' b', ⟨ha', hb'⟩, by simp only [ExprContext.tokens, htokens, htokens']⟩
  | .parenExpr e => by
    obtain ⟨e', he', htokens⟩ := e.exists_respects
    exact ⟨.parenExpr e', he', by simp only [ExprContext.tokens, htokens]⟩

theorem exists_respectsList : ∀ es : List ExprContext, ∃ es' : List ExprContext,
    ExprContext.RespectsList es' ∧ ExprContext.tokensList es' = ExprContext.tokensList es
  | [] => ⟨[], trivial, rfl⟩
  | e :: es => by
    obtain ⟨e', he', htokens⟩ := e.exists_respects
    obtain ⟨es', hes', htokens'⟩ := exists_respectsList es
    exact ⟨e' :: es', ⟨he', hes'⟩, by simp only [ExprContext.tokensList, htokens, htokens']⟩

theorem exists_respectsFields : ∀ fs : List FieldExprContext, ∃ fs' : List FieldExprContext,
    ExprContext.RespectsFields fs' ∧ ExprContext.tokensFields fs' = ExprContext.tokensFields fs
  | [] => ⟨[], trivial, rfl⟩
  | .mk x e :: fs => by
    obtain ⟨e', he', htokens⟩ := e.exists_respects
    obtain ⟨fs', hfs', htokens'⟩ := exists_respectsFields fs
    exact ⟨.mk x e' :: fs', ⟨he', hfs'⟩, by simp only [ExprContext.tokensFields, htokens, htokens']⟩

end

end Sipc
