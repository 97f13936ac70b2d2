import Sipc.Frontend.StatementParserCorrectness

/-!
# What the parser of functions accepts

`parseFunction` is a method of the rule `function` as the generated one is assumed to be
(`generatedFunction_parseFunction`). Its trees make the choices of the grammar, and a tree that makes
them, and that has no statement which begins like an empty block, is read from its tokens
(`FunctionContext.parseFunction_eq`).
-/

set_option autoImplicit false
set_option relaxedAutoImplicit false

namespace Sipc

open Library Library.Choices

variable {strict : Prop} {n : ℕ} {ts rest : List Token}

/-! ### Names -/

/-- The tokens of a name behind another one. -/
def moreNameTokens (x : Identifier) : List Token :=
  [.comma, .identifier x]

theorem nameTokens_cons (x : Identifier) (xs : List Identifier) :
    nameTokens (x :: xs) = .identifier x :: xs.flatMap moreNameTokens := by
  induction xs generalizing x with
  | nil => rfl
  | cons y ys ih =>
    have h : nameTokens (x :: y :: ys) = .identifier x :: .comma :: nameTokens (y :: ys) := rfl
    rw [h, ih, List.flatMap_cons]
    rfl

theorem length_flatMap_moreNameTokens (xs : List Identifier) :
    (xs.flatMap moreNameTokens).length = 2 * xs.length := by
  induction xs with
  | nil => rfl
  | cons x xs ih =>
    rw [List.flatMap_cons, List.length_append, ih, List.length_cons]
    change 2 + 2 * xs.length = 2 * (xs.length + 1)
    omega

theorem length_le_nameTokens : ∀ xs : List Identifier, xs.length ≤ (nameTokens xs).length
  | [] => Nat.le_refl _
  | x :: xs => by
    rw [nameTokens_cons, List.length_cons, List.length_cons, length_flatMap_moreNameTokens]
    omega

theorem picks_nameRule (x : Identifier) : Picks strict (nameRule (.identifier x :: ts)) (x, ts) :=
  picks_next rfl

theorem moreNamesRule_sound {xs : List Identifier} (h : (xs, rest) ∈ moreNamesRule n ts) :
    ts = xs.flatMap moreNameTokens ++ rest := by
  refine mem_many (fun {ts x rest} hx ↦ ?_) h
  obtain ⟨_, ts₁, hcomma, hname⟩ := mem_bind.1 hx
  rw [mem_token.1 hcomma, nameRule_sound hname]
  rfl

theorem picks_moreNamesRule {t : Token} (ht : t ≠ .comma) (xs : List Identifier)
    (hn : xs.length < n) :
    Picks strict (moreNamesRule n (xs.flatMap moreNameTokens ++ t :: rest)) (xs, t :: rest) := by
  refine picks_many (bind_token_of_ne ht) hn fun x _ rest' ↦ ?_
  exact (picks_token _).bind (picks_nameRule x)

theorem formalsRule_sound {xs : List Identifier} (h : (xs, rest) ∈ formalsRule n ts) :
    ts = nameTokens xs ++ rest := by
  rcases mem_orElse.1 h with h | h
  · obtain ⟨x, ts₁, hx, h⟩ := mem_bind.1 h
    obtain ⟨xs', ts₂, hxs, h⟩ := mem_bind.1 h
    obtain ⟨rfl, rfl⟩ := Prod.mk.inj (mem_pure.1 h)
    rw [nameRule_sound hx, moreNamesRule_sound hxs, nameTokens_cons]
    rfl
  · obtain ⟨rfl, rfl⟩ := Prod.mk.inj (mem_pure.1 h)
    rfl

theorem picks_formalsRule (xs : List Identifier) (hn : xs.length < n) :
    Picks strict (formalsRule n (nameTokens xs ++ .rparen :: rest)) (xs, .rparen :: rest) := by
  cases xs with
  | nil => exact picks_pure.orElse' fun _ ↦ rfl
  | cons x xs =>
    rw [nameTokens_cons]
    refine ((picks_nameRule x).bind ?_).orElse
    exact (picks_moreNamesRule (by simp) xs (Nat.lt_of_succ_lt hn)).bind picks_pure

/-! ### Declarations -/

theorem declarationRule_sound {d : DeclarationContext} (h : (d, rest) ∈ declarationRule n ts) :
    ts = d.tokens ++ rest := by
  simp only [declarationRule, mem_bind, mem_token, mem_pure, Prod.mk.injEq] at h
  obtain ⟨-, ts₁, rfl, x, ts₂, hx, xs, ts₃, hxs, -, ts₄, rfl, rfl, rfl⟩ := h
  rw [nameRule_sound hx, moreNamesRule_sound hxs, DeclarationContext.tokens,
    DeclarationContext.names, nameTokens_cons]
  simp

theorem DeclarationContext.length_tokens (d : DeclarationContext) :
    d.tokens.length = 2 * d.more.length + 3 := by
  rw [DeclarationContext.tokens, DeclarationContext.names, nameTokens_cons, List.length_cons,
    List.length_append, List.length_cons, length_flatMap_moreNameTokens]
  rfl

theorem DeclarationContext.picks (d : DeclarationContext) (hn : d.more.length < n) :
    Picks strict (declarationRule n (d.tokens ++ rest)) (d, rest) := by
  rw [DeclarationContext.tokens, DeclarationContext.names, nameTokens_cons]
  simp only [List.cons_append, List.append_assoc, List.nil_append]
  refine (picks_token _).bind ((picks_nameRule d.first).bind ?_)
  refine (picks_moreNamesRule (by simp) d.more hn).bind ?_
  exact (picks_token _).bind picks_pure

theorem length_flatMap_tokens {ds : List DeclarationContext} :
    ds.length ≤ (ds.flatMap DeclarationContext.tokens).length ∧
      ∀ d ∈ ds, d.more.length ≤ (ds.flatMap DeclarationContext.tokens).length := by
  induction ds with
  | nil => exact ⟨Nat.le_refl _, fun d hd ↦ by cases hd⟩
  | cons d ds ih =>
    have hd := d.length_tokens
    rw [List.flatMap_cons, List.length_append, List.length_cons]
    refine ⟨by omega, fun d' hd' ↦ ?_⟩
    rcases List.mem_cons.1 hd' with rfl | hd'
    · omega
    · have := ih.2 d' hd'
      omega

/-! ### Functions -/

theorem EnoughFuel.lt {us : List Token} {k : ℕ} (hn : EnoughFuel n (us ++ ts)) (h : k ≤ us.length) :
    k < n + 2 := by
  unfold EnoughFuel at hn
  rw [List.length_append] at hn
  omega

theorem polyRule_sound {poly : Bool} (h : (poly, rest) ∈ polyRule ts) :
    ts = (if poly then [.kPoly] else []) ++ rest := by
  rcases mem_ifNext h with ⟨ts', rfl, h⟩ | ⟨-, h⟩
  · obtain ⟨rfl, rfl⟩ := Prod.mk.inj (mem_pure.1 h)
    rfl
  · obtain ⟨rfl, rfl⟩ := Prod.mk.inj (mem_pure.1 h)
    rfl

theorem picks_polyRule (poly : Bool) :
    Picks strict (polyRule ((if poly then [.kPoly] else []) ++ .lbrace :: rest))
      (poly, .lbrace :: rest) := by
  cases poly with
  | false =>
    change Picks strict (polyRule (.lbrace :: rest)) (false, .lbrace :: rest)
    rw [polyRule, ifNext_of_head? (by simp)]
    exact picks_pure
  | true => exact Picks.ifNext picks_pure

theorem functionRule_sound {f : FunctionContext} (h : (f, rest) ∈ functionRule n ts) :
    ts = f.tokens ++ rest ∧ f.Respects := by
  simp only [functionRule, mem_bind, mem_token, mem_pure, Prod.mk.injEq] at h
  obtain ⟨name, ts₁, hname, -, ts₂, rfl, formals, ts₃, hformals, -, ts₄, rfl, poly, ts₅, hpoly, -, ts₆,
    rfl, ds, ts₇, hds, ss, ts₈, hss, -, ts₉, rfl, e, ts₁₀, he, -, ts₁₁, rfl, -, ts₁₂, rfl, rfl, rfl⟩ := h
  obtain rfl := nameRule_sound hname
  obtain rfl := formalsRule_sound hformals
  obtain rfl := polyRule_sound hpoly
  obtain rfl : _ = ds.flatMap DeclarationContext.tokens ++ _ := mem_many declarationRule_sound hds
  obtain ⟨rfl, hss'⟩ := statementsRule_sound _ hss
  obtain ⟨rfl, he'⟩ := exprRule_sound he
  refine ⟨?_, hss', he'⟩
  simp [FunctionContext.tokens, FunctionContext.headTokens, FunctionContext.bodyTokens]

/-- A function that makes the choices of the grammar is among the ways to read its tokens, and the
first one if its statements are plain. -/
theorem FunctionContext.picks (f : FunctionContext) (h : f.Respects)
    (hplain : strict → StatementContext.PlainList f.statements)
    (hn : EnoughFuel n (f.tokens ++ rest)) :
    Picks strict (functionRule (n + 2) (f.tokens ++ rest)) (f, rest) := by
  obtain ⟨name, formals, poly, ds, ss, e⟩ := f
  obtain ⟨hss, he⟩ := h
  simp only [FunctionContext.tokens, FunctionContext.headTokens, FunctionContext.bodyTokens,
    List.cons_append, List.append_assoc, List.nil_append] at hn ⊢
  have hformals : formals.length < n + 2 :=
    hn.tail.tail.lt (length_le_nameTokens formals)
  have hdeclarations := hn.tail.tail.drop.tail.drop.tail
  have hds : ds.length < n + 2 ∧ ∀ d ∈ ds, d.more.length < n + 2 :=
    ⟨hdeclarations.lt length_flatMap_tokens.1,
      fun d hd ↦ hdeclarations.lt (length_flatMap_tokens.2 d hd)⟩
  rw [functionRule]
  refine (picks_nameRule name).bind ((picks_token _).bind ?_)
  refine (picks_formalsRule formals hformals).bind ((picks_token _).bind ?_)
  refine (picks_polyRule poly).bind ((picks_token _).bind ?_)
  have hn := hdeclarations.drop
  have hstop : declarationRule (n + 2) (StatementContext.tokensList ss ++
      .kReturn :: (e.tokens ++ .semi :: .rbrace :: rest)) = [] := by
    cases ss with
    | nil => exact bind_token_of_ne (by simp)
    | cons s ss =>
      rw [StatementContext.tokensList, List.append_assoc]
      refine bind_eq_nil_of_eq_nil (token_eq_nil fun heq ↦ ?_)
      obtain ⟨ts', hts'⟩ := List.head?_eq_some_iff.1 heq
      exact s.head_ne (t := .kVar) trivial _ ts' hts'
  refine (picks_many hstop hds.1 fun d hd _ ↦ d.picks (hds.2 d hd)).bind ?_
  refine (StatementContext.picksList ss hss hplain ⟨.kReturn, _, rfl, trivial, by simp⟩ hn).bind ?_
  refine (picks_token _).bind ?_
  rw [bind_exprRule he hn.drop.tail.succ.succ rfl]
  exact (picks_token _).bind ((picks_token _).bind picks_pure)

/-- `parseFunction` is as the generated method is assumed to be. -/
theorem generatedFunction_parseFunction : GeneratedFunction parseFunction where
  sound h := (functionRule_sound (List.mem_of_head? h)).1.symm
  complete f rest := by
    obtain ⟨ss, hss, hstatements⟩ := StatementContext.exists_respectsList f.statements
    obtain ⟨e, he, hreturned⟩ := f.returned.exists_respects
    have htokens : f.tokens = { f with statements := ss, returned := e : FunctionContext }.tokens := by
      simp only [FunctionContext.tokens, FunctionContext.headTokens, FunctionContext.bodyTokens,
        hstatements, hreturned]
    rw [htokens]
    have hpicks : Picks False _ (_, rest) := FunctionContext.picks
      { f with statements := ss, returned := e } ⟨hss, he⟩ False.elim (Nat.le_refl _)
    intro hnone
    have hmem := hpicks.mem
    rw [List.head?_eq_none_iff.1 hnone] at hmem
    cases hmem

theorem parseFunction_respects {f : FunctionContext} (h : parseFunction ts = some (f, rest)) :
    f.Respects :=
  (functionRule_sound (List.mem_of_head? h)).2

/-- A function that makes the choices of the grammar, with plain statements, is read from its
tokens. -/
theorem FunctionContext.parseFunction_eq (f : FunctionContext) (h : f.Respects)
    (hplain : StatementContext.PlainList f.statements) :
    parseFunction (f.tokens ++ rest) = some (f, rest) := by
  have hpicks : Picks True _ (f, rest) := f.picks h (fun _ ↦ hplain) (Nat.le_refl _)
  exact hpicks.head?

/-- The parser succeeds exactly where the tokens begin with a function of the grammar, and it reads a
function with plain statements exactly where this makes the choices of the grammar. -/
theorem parseFunction_exact (ts : List Token) :
    ((∃ f rest, parseFunction ts = some (f, rest)) ↔
      ∃ (f : FunctionContext) (rest : List Token), f.tokens ++ rest = ts) ∧
    ∀ (f : FunctionContext) (rest : List Token), StatementContext.PlainList f.statements →
      (parseFunction ts = some (f, rest) ↔ f.tokens ++ rest = ts ∧ f.Respects) := by
  refine ⟨⟨?_, ?_⟩, fun f rest hplain ↦ ⟨fun h ↦ ?_, ?_⟩⟩
  · rintro ⟨f, rest, h⟩
    exact ⟨f, rest, generatedFunction_parseFunction.sound h⟩
  · rintro ⟨f, rest, rfl⟩
    obtain ⟨⟨f', rest'⟩, h⟩ :=
      Option.ne_none_iff_exists'.1 (generatedFunction_parseFunction.complete f rest)
    exact ⟨f', rest', h⟩
  · exact ⟨generatedFunction_parseFunction.sound h, parseFunction_respects h⟩
  · rintro ⟨rfl, hrespects⟩
    exact f.parseFunction_eq hrespects hplain

end Sipc
