import Sipc.Frontend.FunctionParserCorrectness
import Sipc.Frontend.StatementRoundTrip

/-!
# Printing and reading programs

A program that was parsed and checked is printed as a text that is parsed as the same program, where
the texts of its expressions are read as these (`FrontEnd.reparse`). What is needed beside that holds
of every parsed program: an `else` belongs to the nearest `if`, no declaration is empty, and the names
and numbers can be written (`Parsed`).
-/

set_option autoImplicit false
set_option relaxedAutoImplicit false

namespace Sipc

open Library Library.Run PrettyPrinter

/-! ### What is known of a parsed program -/

theorem lexicalList_iff {cs : List Shape} : Shape.LexicalList cs ↔ ∀ c ∈ cs, c.Lexical := by
  induction cs with
  | nil => exact iff_of_true trivial (by simp)
  | cons c cs ih => rw [Shape.LexicalList, ih, List.forall_mem_cons]

/-- What every function that was parsed has. -/
structure ASTFunction.Parsed (f : ASTFunction) : Prop where
  lexical : f.shape.Lexical
  nearestElse : Outline.NearestElseList (ASTStmt.outlineList f.body)
  vars : ∀ d ∈ f.declarations, d.vars ≠ []

/-- The names as identifiers. -/
theorem exists_names {ds : List ASTDeclNode} (h : ∀ d ∈ ds, d.shape.Lexical) :
    ∃ xs : List Identifier, xs.map Identifier.text = ds.map ASTDeclNode.name ∧
      xs.map nameShape = ds.map ASTDeclNode.shape := by
  induction ds with
  | nil => exact ⟨[], rfl, rfl⟩
  | cons d ds ih =>
    obtain ⟨hd, hds⟩ := List.forall_mem_cons.1 h
    obtain ⟨xs, htext, hshape⟩ := ih hds
    exact ⟨⟨d.name, hd.1⟩ :: xs, congrArg (List.cons _) htext, congrArg (List.cons _) hshape⟩

theorem spells_names (xs : List Identifier) :
    Spells (commaSeparated (xs.map Identifier.text)) (nameTokens xs) := by
  refine spells_commas ?_
  rw [List.forall₂_map_left_iff, List.forall₂_map_right_iff, List.forall₂_same]
  exact fun x _ ↦ spells_identifier x

variable {indentChar : Char} {indentSize : ℕ}

/-- The text of a declaration spells a tree with its shape. -/
theorem ASTDeclStmt.exists_reread (hindent : isSpace indentChar) (d : ASTDeclStmt)
    (hlexical : d.shape.Lexical) (hvars : d.vars ≠ []) :
    ∃ c : DeclarationContext, c.shape = d.shape ∧
      Opens (d.text indentChar indentSize) c.tokens := by
  obtain ⟨xs, htext, hshape⟩ := exists_names fun v hv ↦
    lexicalList_iff.1 hlexical.2 _ (List.mem_map_of_mem hv)
  cases xs with
  | nil =>
    rw [List.map_nil] at htext
    exact absurd (List.map_eq_nil_iff.1 htext.symm) hvars
  | cons x xs =>
    refine ⟨⟨x, xs⟩, congrArg (Shape.node .declStmt) hshape, ?_⟩
    have hnames := spells_names (x :: xs)
    rw [htext] at hnames
    exact ((((opens_indent hindent indentSize 1).append (opens_keyword_space (t := .kVar)
      (by decide))).appendSpells hnames).append (opens_symbol (t := .semi) (by decide)) rfl).congr rfl
      (by simp [DeclarationContext.tokens, DeclarationContext.names])

theorem exists_rereadDecls (hindent : isSpace indentChar) (indentSize : ℕ) {ds : List ASTDeclStmt}
    (hlexical : ∀ d ∈ ds, d.shape.Lexical) (hvars : ∀ d ∈ ds, d.vars ≠ []) :
    ∃ cs : List DeclarationContext, cs.map DeclarationContext.shape = ds.map ASTDeclStmt.shape ∧
      List.Forall₂ Opens (ds.map (ASTDeclStmt.text indentChar indentSize))
        (cs.map DeclarationContext.tokens) := by
  induction ds with
  | nil => exact ⟨[], rfl, .nil⟩
  | cons d ds ih =>
    obtain ⟨hd, hds⟩ := List.forall_mem_cons.1 hlexical
    obtain ⟨hd', hds'⟩ := List.forall_mem_cons.1 hvars
    obtain ⟨c, hshape, hopens⟩ := d.exists_reread hindent hd hd'
    obtain ⟨cs, hshapes, hopenss⟩ := ih hds hds'
    exact ⟨c :: cs, congrArg₂ List.cons hshape hshapes, .cons hopens hopenss⟩

/-! ### Functions -/

/-- The expressions of a function that are no part of another one. -/
def ASTFunction.roots (f : ASTFunction) : List ASTExpr :=
  ASTStmt.rootsList f.body ++ [f.ret.arg]

/-- The tree that is read from the text of a function. -/
structure IsRereadFunction (text : String) (f : ASTFunction) (c : FunctionContext) : Prop where
  respects : c.Respects
  plain : StatementContext.PlainList c.statements
  shape_eq : c.shape = f.shape
  opens : Opens text c.tokens
  builds : ∀ e ∈ c.exprs, e.LiteralFits ∧ e.HasMethod

theorem spells_poly (poly : Bool) :
    Spells (if poly then "poly" else "") (if poly then [.kPoly] else []) := by
  cases poly with
  | false => exact opens_empty.spells
  | true => exact spells_keyword (t := .kPoly) (by decide)

/-- The text of a function, from the texts of its parts. -/
theorem opens_function (hindent : isSpace indentChar) (f : ASTFunction) (hname : IsIdentifier f.name)
    {xs : List Identifier} (hxs : xs.map Identifier.text = f.formals.map ASTDeclNode.name)
    {cs : List DeclarationContext} (hcs : List.Forall₂ Opens
      (f.declarations.map (ASTDeclStmt.text indentChar indentSize)) (cs.map DeclarationContext.tokens))
    {us : List StatementContext} (hus : List.Forall₂ Opens
      (ASTStmt.textList indentChar indentSize 1 f.body) (us.map StatementContext.tokens))
    {e : ExprContext} (he : Spells f.ret.arg.text e.tokens) :
    Opens (f.text indentChar indentSize)
      (FunctionContext.mk ⟨f.name, hname⟩ xs f.isPoly cs us e).tokens := by
  have hret : Opens (f.ret.text indentChar indentSize) (.kReturn :: (e.tokens ++ [.semi])) :=
    ((((opens_indent hindent indentSize 1).append (opens_keyword_space (t := .kReturn)
      (by decide))).appendSpells he).append (opens_symbol (t := .semi) (by decide)) rfl).congr rfl
      (by simp)
  have hbody := opens_joinItems (List.rel_append hus (.cons hret .nil)) (f.body.length + 1)
  have hnames := spells_names xs
  rw [hxs] at hnames
  have hhead := (((opens_symbol (t := .lparen) (by decide)).appendSpells hnames).append
    (opens_symbol_space (t := .rparen) (by decide)) rfl).appendSpells (spells_poly f.isPoly)
  have hbrace : Opens "\n\x7b\n" [.lbrace] := (opens_newline.append
    (opens_symbol (t := .lbrace) (by decide))).append opens_newline
  have hrest := (((hhead.append hbrace rfl).append
    (opens_joinItems hcs f.declarations.length)).append hbody).append
    ((opens_symbol (t := .rbrace) (by decide)).append opens_newline)
  refine ((spells_identifier ⟨f.name, hname⟩).append hrest ?_).congr rfl ?_
  · simp only [String.append_assoc]
    exact BreaksWord.append rfl
  · simp [FunctionContext.tokens, FunctionContext.headTokens, FunctionContext.bodyTokens,
      tokensList_eq, List.flatMap_def]

theorem ASTFunction.mem_accept_of_body (f : ASTFunction) {ev : VisitEvent}
    (h : ev ∈ ASTStmt.acceptList f.body) : ev ∈ f.accept := by
  rw [f.accept_eq, ASTFunction.innerEvents]
  simp only [List.mem_cons, List.mem_append, h, true_or, or_true]

/-- The text of a function spells a tree with its shape. -/
theorem ASTFunction.exists_reread (hindent : isSpace indentChar) {f : ASTFunction} (h : f.Parsed)
    (hrereads : ∀ e ∈ f.roots, e.Rereads)
    (hchecked : ∀ n, .endVisit n ∈ f.accept → CheckAssignable.endVisit n = .ok ()) :
    ∃ c, IsRereadFunction (f.text indentChar indentSize) f c := by
  obtain ⟨hrss, hre⟩ := List.forall_mem_append.1 hrereads
  obtain ⟨hchildren, hret⟩ := List.forall_mem_append.1 (lexicalList_iff.1 h.lexical.2)
  obtain ⟨hchildren, hbody⟩ := List.forall_mem_append.1 hchildren
  obtain ⟨hchildren, hdecls⟩ := List.forall_mem_append.1 hchildren
  obtain ⟨hdecl, hformals⟩ := List.forall_mem_cons.1 hchildren
  obtain ⟨xs, htext, hxs⟩ := exists_names fun d hd ↦ hformals _ (List.mem_map_of_mem hd)
  obtain ⟨cs, hcs, hdeclsOpen⟩ := exists_rereadDecls hindent indentSize
    (fun d hd ↦ hdecls _ (List.mem_map_of_mem hd)) h.vars
  obtain ⟨us, hus⟩ := exists_rereadList hindent indentSize f.body 1 hrss
    (lexicalList_iff.2 hbody) fun n hn ↦ hchecked n (f.mem_accept_of_body hn)
  obtain ⟨e, he⟩ := (hre _ List.mem_cons_self).exists_tree (hret _ List.mem_cons_self).2.1
  refine ⟨⟨⟨f.name, hdecl.1⟩, xs, f.isPoly, cs, us, e⟩, ⟨?_, he.respects⟩, hus.plain, ?_, ?_,
    List.forall_mem_append.2 ⟨hus.builds, he.builds⟩⟩
  · rw [StatementContext.respectsList_iff, hus.outline_eq]
    exact ⟨hus.respects, h.nearestElse⟩
  · rw [FunctionContext.shape, hxs, hcs, hus.shape_eq, he.shape_eq]
    rfl
  · exact opens_function hindent f hdecl.1 htext hdeclsOpen hus.opens he.spells

/-! ### Programs -/

/-- The expressions of a program that are no part of another one. -/
def ASTProgram.roots (p : ASTProgram) : List ASTExpr :=
  p.functions.flatMap ASTFunction.roots

/-- The loop reads a program whose functions are read one after the other. -/
theorem programRule_eq : ∀ (more : List FunctionContext) (f : FunctionContext) {n : ℕ},
    (ProgramContext.mk f more).tokens.length < n →
    (∀ c ∈ f :: more, ∀ rest, parseFunction (c.tokens ++ rest) = some (c, rest)) →
    FrontEnd.programRule parseFunction true n (ProgramContext.mk f more).tokens = some ⟨f, more⟩
  | [], f, n + 1, _, h => by
    have hf := h f List.mem_cons_self []
    rw [List.append_nil] at hf
    rw [FrontEnd.tokens_single, FrontEnd.programRule, hf]
    rfl
  | c :: cs, f, n + 1, hn, h => by
    have hmore : (ProgramContext.mk f (c :: cs)).tokens =
        f.tokens ++ (ProgramContext.mk c cs).tokens := FrontEnd.tokens_more f ⟨c, cs⟩
    have hpos : 0 < f.tokens.length := List.length_pos_of_mem List.mem_cons_self
    rw [hmore, List.length_append] at hn
    have ih := programRule_eq cs c (n := n) (by omega) fun d hd ↦ h d (List.mem_cons_of_mem _ hd)
    rw [hmore, FrontEnd.programRule, h f List.mem_cons_self]
    obtain ⟨x, ts, hts⟩ : ∃ x ts, (ProgramContext.mk c cs).tokens = .identifier x :: ts :=
      ⟨_, _, rfl⟩
    rw [hts] at ih ⊢
    dsimp only
    rw [ih]
    rfl

/-- The parser reads the tree that a text is derived from. -/
theorem FrontEnd.programRule_of_derives {text : String} {t : ProgramContext}
    (h : FrontEnd.Derives text t) (hrespects : ∀ f ∈ t.functions, f.Respects)
    (hplain : ∀ f ∈ t.functions, StatementContext.PlainList f.statements) :
    FrontEnd.programRule parseFunction (tokenStream text).2 ((tokenStream text).1.length + 1)
      (tokenStream text).1 = some t := by
  obtain ⟨hended, htokens⟩ := FrontEnd.tokenStream_of_derives h
  rw [List.append_nil] at htokens
  rw [hended, htokens]
  exact programRule_eq t.more t.first (Nat.lt_succ_self _) fun c hc rest ↦
    c.parseFunction_eq (hrespects c hc) (hplain c hc)

/-- What the front end makes of a text that is derived from a tree with the choices of the grammar. -/
theorem FrontEnd.exists_parse {text : String} {t : ProgramContext} (h : FrontEnd.Derives text t)
    (hrespects : ∀ f ∈ t.functions, f.Respects)
    (hplain : ∀ f ∈ t.functions, StatementContext.PlainList f.statements)
    (hbuilds : ∀ e ∈ t.exprs, e.LiteralFits ∧ e.HasMethod) :
    ∃ p, FrontEnd.parse parseFunction text = .ok p ∧ p.shapes = t.shapes := by
  have hbuild := ASTBuilder.builds_build t .initial
  obtain ⟨p, s', hreturns⟩ := hbuild.returns fun e he ↦ (hbuilds e he).1
  refine ⟨p, ((FrontEnd.parse_of_programRule
    (FrontEnd.programRule_of_derives h hrespects hplain)).2 p).2 hreturns.1, ?_⟩
  exact (hbuild.post p s' hreturns).shapes_eq fun e he ↦ (hbuilds e he).2

theorem isIdentifier_x : IsIdentifier "x" := by decide

/-- `main() { var x; if (x) x = 1; else x = -x; return x; }`. -/
def signTree : FunctionContext where
  name := ⟨"main", isIdentifier_main⟩
  formals := []
  poly := false
  declarations := [⟨⟨"x", isIdentifier_x⟩, []⟩]
  statements := [.ifElseStmt (.varExpr ⟨"x", isIdentifier_x⟩)
    (.assignStmt (.varExpr ⟨"x", isIdentifier_x⟩) (.numExpr (.ofNat 1)))
    (.assignStmt (.varExpr ⟨"x", isIdentifier_x⟩) (.negExpr (.varExpr ⟨"x", isIdentifier_x⟩)))]
  returned := .varExpr ⟨"x", isIdentifier_x⟩

theorem derives_signTree : FrontEnd.Derives
    "main()\x7bvar x;if(x)x=1;else x=-x;return x;\x7d" ⟨signTree, []⟩ := by
  unfold FrontEnd.Derives
  decide +kernel

theorem respects_signTree : ∀ f ∈ (ProgramContext.mk signTree []).functions, f.Respects := by
  refine List.forall_mem_singleton.2 ?_
  simp [signTree, FunctionContext.Respects, StatementContext.RespectsList,
    StatementContext.Respects, StatementContext.EndsOpen, ExprContext.Respects,
    ExprContext.loopLevel, ExprContext.leadsWithNumber]

theorem plain_signTree : ∀ f ∈ (ProgramContext.mk signTree []).functions,
    StatementContext.PlainList f.statements := by
  refine List.forall_mem_singleton.2 ?_
  simp [signTree, StatementContext.PlainList, StatementContext.Plain, ExprContext.leftEdge]

/-- From a tree with the choices of the grammar, the front end makes its AST exactly where the numbers
fit and every alternative has a method. -/
theorem FrontEnd.parse_image_iff {text : String} {t : ProgramContext} (h : FrontEnd.Derives text t)
    (hrespects : ∀ f ∈ t.functions, f.Respects)
    (hplain : ∀ f ∈ t.functions, StatementContext.PlainList f.statements) :
    (∃ p, FrontEnd.parse parseFunction text = .ok p ∧ p.shapes = t.shapes) ↔
      ∀ e ∈ t.exprs, e.LiteralFits ∧ e.HasMethod := by
  refine ⟨?_, FrontEnd.exists_parse h hrespects hplain⟩
  rintro ⟨p, hp, hshapes⟩
  have hrule := FrontEnd.programRule_of_derives h hrespects hplain
  have hreturns : Returns (ASTBuilder.build t) .initial p _ :=
    ⟨((FrontEnd.parse_of_programRule hrule).2 p).1 hp, rfl⟩
  have hbuild := ASTBuilder.builds_build t .initial
  have hmethods := (hbuild.post p _ hreturns).shapes_eq_iff.1 hshapes
  exact fun e he ↦ ⟨hbuild.fit p _ hreturns e he, hmethods e he⟩

theorem parse_image_signTree : ∃ p, FrontEnd.parse parseFunction
    "main()\x7bvar x;if(x)x=1;else x=-x;return x;\x7d" = .ok p ∧
      p.shapes = (ProgramContext.mk signTree []).shapes := by
  refine (FrontEnd.parse_image_iff derives_signTree respects_signTree plain_signTree).2 ?_
  simp [ProgramContext.exprs, ProgramContext.functions, FunctionContext.exprs, signTree,
    StatementContext.exprsList, StatementContext.exprs, ExprContext.exprs, ExprContext.LiteralFits,
    ExprContext.HasMethod, Numeral.value_ofNat]

end Sipc
