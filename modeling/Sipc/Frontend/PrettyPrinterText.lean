import Sipc.Frontend.PrettyPrinter
import Sipc.Frontend.Traversal

/-!
# The text of a program

What the printer writes for statements, functions and programs, as a function of the tree. A statement
is printed at the indentation of its place, and every statement pushes its text (`ASTStmt.pushes_text`),
so `print` gives the texts of the functions with an empty line between them (`PrettyPrinter.print_eq`).
-/

set_option autoImplicit false
set_option relaxedAutoImplicit false

namespace Sipc

open PrettyPrinter

variable (indentChar : Char) (indentSize : ℕ)

mutual

/-- What the printer writes for a statement at the indentation level. -/
def ASTStmt.text (level : ℕ) : ASTStmt → String
  | .updateStmt _ arg increment =>
    indent indentChar indentSize level ++ arg.text ++ (if increment then "++" else "--") ++ ";"
  | .assignStmt _ lhs rhs =>
    indent indentChar indentSize level ++ lhs.text ++ " = " ++ rhs.text ++ ";"
  | .blockStmt _ stmts =>
    indent indentChar indentSize level ++ "\x7b\n" ++
      joinItems "\n" stmts.length (ASTStmt.textList (level + 1) stmts) ++
      indent indentChar indentSize level ++ "\x7d"
  | .whileStmt _ condition body =>
    indent indentChar indentSize level ++ "while (" ++ condition.text ++ ") \n" ++
      body.text (level + 1)
  | .forStmt _ item (.iterator iterator) body =>
    indent indentChar indentSize level ++ "for (" ++ item.text ++ " : " ++ iterator.text ++ ") \n" ++
      body.text (level + 1)
  | .forStmt _ item (.range rangeStart rangeEnd none) body =>
    indent indentChar indentSize level ++ "for (" ++ item.text ++ " : " ++
      (rangeStart.text ++ ".." ++ rangeEnd.text) ++ ") \n" ++ body.text (level + 1)
  | .forStmt _ item (.range rangeStart rangeEnd (some increment)) body =>
    indent indentChar indentSize level ++ "for (" ++ item.text ++ " : " ++
      (rangeStart.text ++ ".." ++ rangeEnd.text) ++ (" by " ++ increment.text) ++ ") \n" ++
      body.text (level + 1)
  | .ifStmt _ condition thenStmt none =>
    indent indentChar indentSize level ++ "if (" ++ condition.text ++ ") \n" ++
      thenStmt.text (level + 1)
  | .ifStmt _ condition thenStmt (some elseStmt) =>
    indent indentChar indentSize level ++ "if (" ++ condition.text ++ ") \n" ++
      thenStmt.text (level + 1) ++ ("\n" ++ indent indentChar indentSize level ++ "else\n" ++
      elseStmt.text (level + 1))
  | .outputStmt _ arg => indent indentChar indentSize level ++ "output " ++ arg.text ++ ";"
  | .errorStmt _ arg => indent indentChar indentSize level ++ "error " ++ arg.text ++ ";"

def ASTStmt.textList (level : ℕ) : List ASTStmt → List String
  | [] => []
  | s :: ss => s.text level :: ASTStmt.textList level ss

end

/-- What the printer writes for a declaration in the body of a function. -/
def ASTDeclStmt.text (s : ASTDeclStmt) : String :=
  indent indentChar indentSize 1 ++ "var " ++ commaSeparated (s.vars.map ASTDeclNode.name) ++ ";"

/-- What the printer writes for the return statement of a function. -/
def ASTReturnStmt.text (s : ASTReturnStmt) : String :=
  indent indentChar indentSize 1 ++ "return " ++ s.arg.text ++ ";"

/-- What the printer writes for a function. -/
def ASTFunction.text (f : ASTFunction) : String :=
  f.name ++ ("(" ++ commaSeparated (f.formals.map ASTDeclNode.name) ++ ") " ++
    (if f.isPoly then "poly" else "") ++ "\n\x7b\n" ++
    joinItems "\n" f.declarations.length (f.declarations.map (ASTDeclStmt.text indentChar indentSize)) ++
    joinItems "\n" (f.body.length + 1)
      (ASTStmt.textList indentChar indentSize 1 f.body ++ [f.ret.text indentChar indentSize]) ++
    "\x7d\n")

/-- What the printer writes for a program. -/
def ASTProgram.text (p : ASTProgram) : String :=
  joinItems "\n" (p.functions.length - 1) (p.functions.map (ASTFunction.text indentChar indentSize))

variable {indentChar : Char} {indentSize level : ℕ}

theorem length_textStmts (ss : List ASTStmt) :
    (ASTStmt.textList indentChar indentSize level ss).length = ss.length := by
  induction ss with
  | nil => rfl
  | cons s ss ih => rw [ASTStmt.textList, List.length_cons, List.length_cons, ih]

mutual

/-- The printer pushes the text of a statement. -/
theorem ASTStmt.pushes_text : ∀ (s : ASTStmt) (level : ℕ),
    Pushes indentChar indentSize level s.accept [s.text indentChar indentSize level]
  | .updateStmt _ a _, _ | .outputStmt _ a, _ | .errorStmt _ a, _ =>
    pushes_visiting a.pushes_text fun _ _ ↦ rfl
  | .assignStmt _ l r, _ => pushes_visiting (l.pushes_text.append r.pushes_text) fun _ _ ↦ rfl
  | .blockStmt n ss, level => by
    refine pushes_visiting (pushes_textStmts ss (level + 1)) fun s ss' ↦ ?_
    have hlen : (ASTStmt.textList indentChar indentSize (level + 1) ss).length = ss.length :=
      length_textStmts ss
    have hjoin := joinWithDelim_reverse (l := s :: ss') "\n" hlen (Nat.zero_le _)
    simp only [endVisit, ASTStmt.endVisit, hjoin, Option.bind_eq_bind, Option.bind_some, Nat.sub_zero]
    rfl
  | .whileStmt _ c b, level =>
    pushes_visiting (c.pushes_text.append (b.pushes_text (level + 1))) fun _ _ ↦ rfl
  | .forStmt _ i (.iterator a) b, level =>
    pushes_visiting ((i.pushes_text.append a.pushes_text).append (b.pushes_text (level + 1)))
      fun _ _ ↦ rfl
  | .forStmt _ i (.range a z none) b, level =>
    pushes_visiting ((i.pushes_text.append (a.pushes_text.append z.pushes_text)).append
      (b.pushes_text (level + 1))) fun _ _ ↦ rfl
  | .forStmt _ i (.range a z (some k)) b, level =>
    pushes_visiting ((i.pushes_text.append ((a.pushes_text.append z.pushes_text).append
      k.pushes_text)).append (b.pushes_text (level + 1))) fun _ _ ↦ rfl
  | .ifStmt _ c t none, level =>
    pushes_visiting (c.pushes_text.append (t.pushes_text (level + 1))) fun _ _ ↦ rfl
  | .ifStmt _ c t (some f), level =>
    pushes_visiting ((c.pushes_text.append (t.pushes_text (level + 1))).append
      (f.pushes_text (level + 1))) fun _ _ ↦ rfl

theorem pushes_textStmts : ∀ (ss : List ASTStmt) (level : ℕ), Pushes indentChar indentSize level
    (ASTStmt.acceptList ss) (ASTStmt.textList indentChar indentSize level ss)
  | [], _ => pushes_nil
  | s :: ss, level => (s.pushes_text level).append (pushes_textStmts ss level)

end

/-- The calls for a list of nodes push the texts of the nodes. -/
theorem pushes_flatMap {α : Type} {accept : α → List VisitEvent} {text : α → String}
    (h : ∀ a, Pushes indentChar indentSize level (accept a) [text a]) :
    ∀ as : List α, Pushes indentChar indentSize level (as.flatMap accept) (as.map text)
  | [] => pushes_nil
  | a :: as => (h a).append (pushes_flatMap h as)

theorem joinWithDelim_map {α : Type} (text : α → String) (as : List α) {l : List String}
    (delim : String) {skip : ℕ} (hskip : skip ≤ as.length + l.length) :
    joinWithDelim ((as.map text).reverse ++ l) delim as.length skip =
      some (joinItems delim (as.length - skip) (as.map text), l) :=
  joinWithDelim_reverse delim (List.length_map text) (by rwa [List.length_map])

theorem ASTDeclNode.pushes_name (d : ASTDeclNode) :
    Pushes indentChar indentSize level d.accept [d.name] :=
  pushes_visiting pushes_nil fun _ _ ↦ rfl

theorem ASTDeclStmt.pushes_text (s : ASTDeclStmt) :
    Pushes indentChar indentSize 1 s.accept [s.text indentChar indentSize] := by
  refine pushes_visiting (pushes_flatMap ASTDeclNode.pushes_name s.vars) fun t ss ↦ ?_
  have hjoin := joinWithDelim_map ASTDeclNode.name s.vars (l := t :: ss) ", "
    (show 1 ≤ _ by rw [List.length_cons]; omega)
  simp only [PrettyPrinter.endVisit, ASTDeclStmt.endVisit, hjoin, Option.bind_eq_bind,
    Option.bind_some, ASTDeclStmt.text, commaSeparated, List.length_map]
  rfl

theorem ASTReturnStmt.pushes_text (s : ASTReturnStmt) :
    Pushes indentChar indentSize 1 s.accept [s.text indentChar indentSize] :=
  pushes_visiting s.arg.pushes_text fun _ _ ↦ rfl

end Sipc
