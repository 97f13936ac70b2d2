import Sipc.Frontend.ExprCompleteness

/-!
# How much fuel reading an expression takes

A call of the expression parser consumes a token, or is one of a few in a row that do not. So fuel
linear in the number of tokens is enough: what is read with any fuel is read with that much
(`parseExpr_of_fuel`), and nothing else.
-/

set_option autoImplicit false
set_option relaxedAutoImplicit false

namespace Sipc

variable {α : Type}

/-- The result leaves fewer tokens, and fuel of 5 for each token and `c` more gives it. -/
structure FuelGives (c : ℕ) (F : ℕ → Option (α × List Token)) (ts : List Token)
    (r : α × List Token) : Prop where
  shorter : r.2.length < ts.length
  gives : ∀ n, 5 * ts.length + c ≤ n → F n = some r

/-- It is enough to look at positive fuel. -/
theorem FuelGives.of_succ {c : ℕ} {F : ℕ → Option (α × List Token)} {ts : List Token}
    {r : α × List Token} (hlt : r.2.length < ts.length)
    (h : ∀ n, 5 * ts.length + c ≤ n + 1 → F (n + 1) = some r) : FuelGives c F ts r := by
  refine ⟨hlt, fun n hn ↦ ?_⟩
  obtain ⟨m, rfl⟩ := Nat.exists_eq_add_of_le' (show 1 ≤ n by omega)
  exact h m hn

/-- What `n` steps of the parser give is given by enough fuel. -/
structure FuelSufficesAt (n : ℕ) : Prop where
  expr : ∀ {p ts r}, parseExpr n p ts = some r → FuelGives 3 (parseExpr · p ts) ts r
  primary : ∀ {ts r}, parsePrimary n ts = some r → FuelGives 2 (parsePrimary · ts) ts r
  operator : ∀ {ts r}, parseOperator n ts = some r → FuelGives 1 (parseOperator · ts) ts r
  array : ∀ {es ts r}, parseArray n es ts = some r → FuelGives 1 (parseArray · es ts) ts r
  suffixes : ∀ {p t ts r}, parseSuffixes n p t ts = some r → r.2.length ≤ ts.length ∧
    ∀ m, 5 * ts.length + 2 ≤ m → parseSuffixes m p t ts = some r
  suffix : ∀ {t ts r}, parseSuffix n t ts = some r → FuelGives 1 (parseSuffix · t ts) ts r
  exprs : ∀ {ts r}, parseExprs n ts = some r → FuelGives 4 (parseExprs · ts) ts r
  fields : ∀ {ts r}, parseFields n ts = some r → FuelGives 1 (parseFields · ts) ts r

namespace FuelSufficesAt

variable {n : ℕ} (hs : FuelSufficesAt n) {ts : List Token}

include hs

theorem parseExpr {p : ℕ} {r : ExprContext × List Token} (h : parseExpr (n + 1) p ts = some r) :
    FuelGives 3 (Sipc.parseExpr · p ts) ts r := by
  rw [Sipc.parseExpr] at h
  obtain ⟨⟨t, ts₁⟩, h₁, h₂⟩ := Option.bind_eq_some_iff.1 h
  have hp := hs.primary h₁
  have hlt := hp.shorter
  obtain ⟨hle, hsuffixes⟩ := hs.suffixes h₂
  dsimp only at hlt hle hsuffixes
  refine .of_succ (by omega) fun m hm ↦ ?_
  rw [Sipc.parseExpr, hp.gives m (by omega)]
  exact hsuffixes m (by omega)

theorem parsePrimary {r : ExprContext × List Token} (h : parsePrimary (n + 1) ts = some r) :
    FuelGives 2 (Sipc.parsePrimary · ts) ts r := by
  rw [Sipc.parsePrimary.eq_def] at h
  dsimp only at h
  split at h
  next heq => cases heq
  next n' x ts' heq =>
    cases heq
    cases h
    refine .of_succ (by simp only [List.length_cons]; omega) fun m _ ↦ ?_
    rw [Sipc.parsePrimary]
    rfl
  next n' ts' heq =>
    cases heq
    obtain ⟨⟨e, ts₁⟩, h₁, h₂⟩ := Option.bind_eq_some_iff.1 h
    dsimp only at h₂
    obtain ⟨ts₂, rfl, h₃⟩ := exists_of_matchToken h₂
    cases h₃
    have he := hs.expr h₁
    have hlt := he.shorter
    simp only [List.length_cons] at hlt
    refine .of_succ (by simp only [List.length_cons]; omega) fun m hm ↦ ?_
    simp only [List.length_cons] at hm
    rw [Sipc.parsePrimary, he.gives m (by omega)]
    rfl
  next n' ts' heq =>
    cases heq
    cases h
    refine .of_succ (by simp only [List.length_cons]; omega) fun m _ ↦ ?_
    rw [Sipc.parsePrimary]
    rfl
  next n' ts' hne heq =>
    cases heq
    obtain ⟨⟨fs, ts₁⟩, h₁, h₂⟩ := Option.bind_eq_some_iff.1 h
    dsimp only at h₂
    obtain ⟨ts₂, rfl, h₃⟩ := exists_of_matchToken h₂
    cases h₃
    have hfs := hs.fields h₁
    have hlt := hfs.shorter
    simp only [List.length_cons] at hlt
    refine .of_succ (by simp only [List.length_cons]; omega) fun m hm ↦ ?_
    simp only [List.length_cons] at hm
    rw [Sipc.parsePrimary, hfs.gives m (by omega)]
    · rfl
    · rintro ts'' rfl
      exact hne ts'' rfl
  next n' ts' heq =>
    cases heq
    cases h
    refine .of_succ (by simp only [List.length_cons]; omega) fun m _ ↦ ?_
    rw [Sipc.parsePrimary]
    rfl
  next n' ts' hne heq =>
    cases heq
    obtain ⟨⟨es, ts₁⟩, h₁, h₂⟩ := Option.bind_eq_some_iff.1 h
    dsimp only at h₂
    have hes := hs.exprs h₁
    have harray := hs.array h₂
    have hlt := hes.shorter
    have hlt' := harray.shorter
    dsimp only at hlt hlt'
    refine .of_succ (by simp only [List.length_cons]; omega) fun m hm ↦ ?_
    simp only [List.length_cons] at hm
    rw [Sipc.parsePrimary, hes.gives m (by omega)]
    · exact harray.gives m (by omega)
    · rintro ts'' rfl
      exact hne ts'' rfl
  next heq h₁ h₂ h₃ h₄ h₅ h₆ =>
    cases heq
    have hop := hs.operator h
    refine .of_succ hop.shorter fun m hm ↦ ?_
    rw [Sipc.parsePrimary]
    · exact hop.gives m (by omega)
    all_goals assumption

theorem parseOperator {r : ExprContext × List Token} (h : parseOperator (n + 1) ts = some r) :
    FuelGives 1 (Sipc.parseOperator · ts) ts r := by
  cases ts with
  | nil => cases h
  | cons op ts =>
    rw [Sipc.parseOperator] at h
    cases hop : prefixContext op with
    | none =>
      rw [hop] at h
      obtain ⟨e, he, h₁⟩ := Option.bind_eq_some_iff.1 h
      cases h₁
      refine .of_succ (by simp) fun m _ ↦ ?_
      rw [Sipc.parseOperator, hop]
      dsimp only
      rw [he]
      rfl
    | some qmk =>
      obtain ⟨q, mk⟩ := qmk
      rw [hop] at h
      obtain ⟨⟨e, ts₁⟩, h₁, h₂⟩ := Option.bind_eq_some_iff.1 h
      cases h₂
      have he := hs.expr h₁
      have hlt := he.shorter
      dsimp only at hlt
      refine .of_succ (by simp only [List.length_cons]; omega) fun m hm ↦ ?_
      simp only [List.length_cons] at hm
      rw [Sipc.parseOperator, hop]
      dsimp only
      rw [he.gives m (by omega)]
      rfl

theorem parseArray {es : List ExprContext} {r : ExprContext × List Token}
    (h : parseArray (n + 1) es ts = some r) : FuelGives 1 (Sipc.parseArray · es ts) ts r := by
  rw [Sipc.parseArray.eq_def] at h
  dsimp only at h
  split at h
  next heq => cases heq
  next n' e1 ts' heq =>
    cases heq
    obtain ⟨⟨e2, ts₁⟩, h₁, h₂⟩ := Option.bind_eq_some_iff.1 h
    dsimp only at h₂
    obtain ⟨ts₂, rfl, h₃⟩ := exists_of_matchToken h₂
    cases h₃
    have he := hs.expr h₁
    have hlt := he.shorter
    simp only [List.length_cons] at hlt
    refine .of_succ (by simp only [List.length_cons]; omega) fun m hm ↦ ?_
    simp only [List.length_cons] at hm
    rw [Sipc.parseArray, he.gives m (by omega)]
    rfl
  next heq hne =>
    cases heq
    obtain ⟨ts₁, rfl, h₁⟩ := exists_of_matchToken h
    cases h₁
    refine .of_succ (by simp) fun m _ ↦ ?_
    rw [Sipc.parseArray, matchToken_cons]
    · rfl
    · exact hne

theorem parseSuffix {t : ExprContext} {r : ExprContext × List Token}
    (h : parseSuffix (n + 1) t ts = some r) : FuelGives 1 (Sipc.parseSuffix · t ts) ts r := by
  rw [Sipc.parseSuffix.eq_def] at h
  dsimp only at h
  split at h
  next heq => cases heq
  next n' ts' heq =>
    cases heq
    cases h
    refine .of_succ (by simp only [List.length_cons]; omega) fun m _ ↦ ?_
    rw [Sipc.parseSuffix]
    rfl
  next n' ts' hne heq =>
    cases heq
    obtain ⟨⟨es, ts₁⟩, h₁, h₂⟩ := Option.bind_eq_some_iff.1 h
    dsimp only at h₂
    obtain ⟨ts₂, rfl, h₃⟩ := exists_of_matchToken h₂
    cases h₃
    have hes := hs.exprs h₁
    have hlt := hes.shorter
    simp only [List.length_cons] at hlt
    refine .of_succ (by simp only [List.length_cons]; omega) fun m hm ↦ ?_
    simp only [List.length_cons] at hm
    rw [Sipc.parseSuffix, hes.gives m (by omega)]
    · rfl
    · rintro ts'' rfl
      exact hne ts'' rfl
  next n' x ts' heq =>
    cases heq
    cases h
    refine .of_succ (by simp only [List.length_cons]; omega) fun m _ ↦ ?_
    rw [Sipc.parseSuffix]
    rfl
  next n' ts' heq =>
    cases heq
    obtain ⟨⟨e, ts₁⟩, h₁, h₂⟩ := Option.bind_eq_some_iff.1 h
    dsimp only at h₂
    obtain ⟨ts₂, rfl, h₃⟩ := exists_of_matchToken h₂
    cases h₃
    have he := hs.expr h₁
    have hlt := he.shorter
    simp only [List.length_cons] at hlt
    refine .of_succ (by simp only [List.length_cons]; omega) fun m hm ↦ ?_
    simp only [List.length_cons] at hm
    rw [Sipc.parseSuffix, he.gives m (by omega)]
    rfl
  next n' ts' heq =>
    cases heq
    obtain ⟨⟨e, ts₁⟩, h₁, h₂⟩ := Option.bind_eq_some_iff.1 h
    dsimp only at h₂
    obtain ⟨ts₂, rfl, h₃⟩ := exists_of_matchToken h₂
    obtain ⟨⟨f, ts₃⟩, h₄, h₅⟩ := Option.bind_eq_some_iff.1 h₃
    cases h₅
    have he := hs.expr h₁
    have hf := hs.expr h₄
    have hlt := he.shorter
    have hlt' := hf.shorter
    simp only [List.length_cons] at hlt hlt'
    refine .of_succ (by simp only [List.length_cons]; omega) fun m hm ↦ ?_
    simp only [List.length_cons] at hm
    rw [Sipc.parseSuffix, he.gives m (by omega)]
    change (Sipc.parseExpr m 14 ts₂ >>= fun y ↦ some (ExprContext.ternaryExpr _ e y.1, y.2)) = _
    rw [hf.gives m (by omega)]
    rfl
  next n' op ts' h₁ h₂ h₃ h₄ h₅ heq =>
    cases heq
    obtain ⟨⟨k, mk⟩, hop, h₆⟩ := Option.bind_eq_some_iff.1 h
    obtain ⟨⟨e, ts₁⟩, h₇, h₈⟩ := Option.bind_eq_some_iff.1 h₆
    cases h₈
    have he := hs.expr h₇
    have hlt := he.shorter
    dsimp only at hlt
    refine .of_succ (by simp only [List.length_cons]; omega) fun m hm ↦ ?_
    simp only [List.length_cons] at hm
    rw [Sipc.parseSuffix]
    · change (binaryContext op >>= fun y ↦ _) = _
      rw [hop]
      change (Sipc.parseExpr m (k + 1) ts' >>= fun y ↦ some (mk _ y.1, y.2)) = _
      rw [he.gives m (by omega)]
      rfl
    all_goals assumption
  next => cases h

theorem parseSuffixes {p : ℕ} {t : ExprContext} {r : ExprContext × List Token}
    (h : parseSuffixes (n + 1) p t ts = some r) : r.2.length ≤ ts.length ∧
      ∀ m, 5 * ts.length + 2 ≤ m → Sipc.parseSuffixes m p t ts = some r := by
  rw [Sipc.parseSuffixes] at h
  suffices hsuff : r.2.length ≤ ts.length ∧
      ∀ m, 5 * ts.length + 2 ≤ m + 1 → Sipc.parseSuffixes (m + 1) p t ts = some r by
    refine ⟨hsuff.1, fun m hm ↦ ?_⟩
    obtain ⟨m', rfl⟩ := Nat.exists_eq_add_of_le' (show 1 ≤ m by omega)
    exact hsuff.2 m' hm
  cases hk : nextLevel ts with
  | none =>
    rw [hk] at h
    cases h
    refine ⟨le_rfl, fun m _ ↦ ?_⟩
    rw [Sipc.parseSuffixes, hk]
    rfl
  | some k =>
    rw [hk] at h
    dsimp only at h
    split at h
    next hlt =>
      cases h
      refine ⟨le_rfl, fun m _ ↦ ?_⟩
      rw [Sipc.parseSuffixes, hk]
      exact if_pos hlt
    next hge =>
      obtain ⟨⟨u, ts₁⟩, h₁, h₂⟩ := Option.bind_eq_some_iff.1 h
      have hu := hs.suffix h₁
      have hlt := hu.shorter
      obtain ⟨hle, hsuffixes⟩ := hs.suffixes h₂
      dsimp only at hlt hle hsuffixes
      refine ⟨by omega, fun m hm ↦ ?_⟩
      rw [Sipc.parseSuffixes, hk]
      dsimp only
      rw [if_neg hge, hu.gives m (by omega)]
      exact hsuffixes m (by omega)

theorem parseExprs {r : List ExprContext × List Token} (h : parseExprs (n + 1) ts = some r) :
    FuelGives 4 (Sipc.parseExprs · ts) ts r := by
  rw [Sipc.parseExprs] at h
  obtain ⟨⟨e, ts₁⟩, h₁, h₂⟩ := Option.bind_eq_some_iff.1 h
  have he := hs.expr h₁
  have hlt := he.shorter
  dsimp only at hlt h₂
  split at h₂
  next ts₂ =>
    obtain ⟨⟨es, ts₃⟩, h₃, h₄⟩ := Option.bind_eq_some_iff.1 h₂
    cases h₄
    have hes := hs.exprs h₃
    have hlt' := hes.shorter
    simp only [List.length_cons] at hlt hlt'
    refine .of_succ (by dsimp only; omega) fun m hm ↦ ?_
    rw [Sipc.parseExprs, he.gives m (by omega)]
    change (Sipc.parseExprs m ts₂ >>= fun x ↦ some (e :: x.1, x.2)) = _
    rw [hes.gives m (by omega)]
    rfl
  next ts₂ hne =>
    cases h₂
    refine .of_succ hlt fun m hm ↦ ?_
    rw [Sipc.parseExprs, he.gives m (by omega)]
    dsimp only [Option.bind_eq_bind, Option.bind_some]
    split
    · exact absurd rfl (hne _)
    · rfl

theorem parseFields {r : List FieldExprContext × List Token} (h : parseFields (n + 1) ts = some r) :
    FuelGives 1 (Sipc.parseFields · ts) ts r := by
  rw [Sipc.parseFields.eq_def] at h
  dsimp only at h
  split at h
  next n' x ts' heq =>
    cases heq
    obtain ⟨⟨e, ts₁⟩, h₁, h₂⟩ := Option.bind_eq_some_iff.1 h
    have he := hs.expr h₁
    have hlt := he.shorter
    dsimp only at hlt h₂
    split at h₂
    next ts₂ =>
      obtain ⟨⟨fs, ts₃⟩, h₃, h₄⟩ := Option.bind_eq_some_iff.1 h₂
      cases h₄
      have hfs := hs.fields h₃
      have hlt' := hfs.shorter
      simp only [List.length_cons] at hlt hlt'
      refine .of_succ (by simp only [List.length_cons]; omega) fun m hm ↦ ?_
      simp only [List.length_cons] at hm
      rw [Sipc.parseFields, he.gives m (by omega)]
      change (Sipc.parseFields m ts₂ >>= fun y ↦ some (.mk x e :: y.1, y.2)) = _
      rw [hfs.gives m (by omega)]
      rfl
    next ts₂ hne =>
      cases h₂
      refine .of_succ (by simp only [List.length_cons]; omega) fun m hm ↦ ?_
      simp only [List.length_cons] at hm
      rw [Sipc.parseFields, he.gives m (by omega)]
      dsimp only [Option.bind_eq_bind, Option.bind_some]
      split
      · exact absurd rfl (hne _)
      · rfl
  next => cases h

end FuelSufficesAt

/-- What the parser gives is given by enough fuel, by induction on the fuel it was given. -/
theorem fuelSufficesAt : ∀ n, FuelSufficesAt n
  | 0 =>
    { expr := fun h ↦ by cases h
      primary := fun h ↦ by cases h
      operator := fun h ↦ by cases h
      array := fun h ↦ by cases h
      suffixes := fun h ↦ by cases h
      suffix := fun h ↦ by cases h
      exprs := fun h ↦ by cases h
      fields := fun h ↦ by cases h }
  | n + 1 =>
    { expr := (fuelSufficesAt n).parseExpr
      primary := (fuelSufficesAt n).parsePrimary
      operator := (fuelSufficesAt n).parseOperator
      array := (fuelSufficesAt n).parseArray
      suffixes := (fuelSufficesAt n).parseSuffixes
      suffix := (fuelSufficesAt n).parseSuffix
      exprs := (fuelSufficesAt n).parseExprs
      fields := (fuelSufficesAt n).parseFields }

/-! ### Enough fuel -/

variable {n p : ℕ} {ts rest : List Token}

/-- What some fuel gives, all fuel from 5 for each token on gives. -/
theorem parseExpr_of_fuel {m : ℕ} {r : ExprContext × List Token} (h : parseExpr m p ts = some r)
    (hn : 5 * ts.length + 3 ≤ n) : parseExpr n p ts = some r :=
  ((fuelSufficesAt m).expr h).gives n hn

theorem Settles.parseExpr_eq {r : ExprContext × List Token} (h : Settles (parseExpr · p ts) r)
    (hn : 5 * ts.length + 3 ≤ n) : parseExpr n p ts = some r := by
  obtain ⟨N, hN⟩ := h.exists_forall
  exact parseExpr_of_fuel (hN N le_rfl) hn

/-- A tree that respects the levels is read where the rest goes on in no loop. -/
theorem ExprContext.Respects.parseExpr_eq {t : ExprContext} (h : t.Respects)
    (hrest : nextLevel rest = none) (hn : 5 * (t.tokens ++ rest).length + 3 ≤ n) :
    parseExpr n 0 (t.tokens ++ rest) = some (t, rest) :=
  (h.finds.settles_zero hrest).parseExpr_eq hn

/-- The tree that is read respects the levels, and the rest goes on in no loop. -/
theorem parseExpr_spec {t : ExprContext} (h : parseExpr n 0 ts = some (t, rest)) :
    ts = t.tokens ++ rest ∧ t.Respects ∧ nextLevel rest = none := by
  obtain ⟨hreads, -, hstops⟩ := (soundAt n).expr 0 ts t rest (Nat.zero_le 27) h
  refine ⟨hreads.tokens, hreads.respects, ?_⟩
  cases hk : nextLevel rest with
  | none => rfl
  | some k => exact absurd (hstops k hk) (Nat.not_lt_zero k)

/-- The rule `expr` on a sequence of tokens, with enough fuel. -/
def readExpr (ts : List Token) : Option (ExprContext × List Token) :=
  parseExpr (5 * ts.length + 3) 0 ts

/-- The rule `expr` reads the one tree with these tokens that respects the levels, and it reads every
sequence of tokens that the grammar derives. -/
theorem readExpr_exact (ts : List Token) :
    (∀ t, readExpr ts = some (t, []) ↔ t.tokens = ts ∧ t.Respects) ∧
      ((∃ t, readExpr ts = some (t, [])) ↔ ∃ e : ExprContext, e.tokens = ts) := by
  have hread : ∀ t, readExpr ts = some (t, []) ↔ t.tokens = ts ∧ t.Respects := by
    intro t
    constructor
    · intro h
      obtain ⟨htokens, hrespects, -⟩ := parseExpr_spec h
      rw [List.append_nil] at htokens
      exact ⟨htokens.symm, hrespects⟩
    · rintro ⟨rfl, hrespects⟩
      exact hrespects.settles.parseExpr_eq le_rfl
  refine ⟨hread, ⟨fun ⟨t, ht⟩ ↦ ⟨t, ((hread t).1 ht).1⟩, ?_⟩⟩
  rintro ⟨e, rfl⟩
  obtain ⟨t, hrespects, htokens⟩ := e.exists_respects
  exact ⟨t, (hread t).2 ⟨htokens, hrespects⟩⟩

end Sipc
