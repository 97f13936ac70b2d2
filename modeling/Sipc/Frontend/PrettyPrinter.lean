import Sipc.Frontend.Shape

/-!
# The pretty printer

`frontend/prettyprint/PrettyPrinter`, a visitor that keeps the strings of the subtrees on a stack. A
read below the bottom of the stack has undefined behaviour (`none`). `ASTExpr.text` and `ASTStmt.text`
are what is left on the stack.
-/

set_option autoImplicit false
set_option relaxedAutoImplicit false

namespace Sipc

/-- The visitor. The back of `visitResults` is the head of the list. -/
structure PrettyPrinter where
  visitResults : List String
  indentLevel : ℕ

/-- The items in order, the first `n` of them with the delimiter behind them. -/
def joinItems (delim : String) : ℕ → List String → String
  | _, [] => ""
  | 0, item :: items => item ++ joinItems delim 0 items
  | n + 1, item :: items => item ++ delim ++ joinItems delim n items

/-- `joinWithDelim`. Where the stack has no `skip` items, the bound of the loop wraps around. -/
def joinWithDelim (visitResults : List String) (delim : String) (sz skip : ℕ) :
    Option (String × List String) :=
  if visitResults.length < sz ∨ visitResults.length < skip then none
  else some (joinItems delim (sz - skip) (visitResults.take sz).reverse, visitResults.drop sz)

/-- `endVisit` of the expressions. -/
def ASTExpr.endVisit : ASTExpr → List String → Option (List String)
  | .numberExpr _ val, ss => some (toString val.toInt :: ss)
  | .boolExpr _ val, ss => some ((if val then "true" else "false") :: ss)
  | .variableExpr _ name, ss => some (name :: ss)
  | .binaryExpr _ op _ _, rightString :: leftString :: ss =>
    some (("(" ++ leftString ++ " " ++ op.text ++ " " ++ rightString ++ ")") :: ss)
  | .ternaryExpr _ _ _ _, elseString :: thenString :: condString :: ss =>
    some ((condString ++ " ? " ++ thenString ++ " : " ++ elseString) :: ss)
  | .inputExpr _, ss => some ("input" :: ss)
  | .funAppExpr _ _ actuals, ss => do
    let (actualsString, ss) ← joinWithDelim ss ", " actuals.length 1
    match ss with
    | [] => none
    | function :: ss => some ((function ++ "(" ++ actualsString ++ ")") :: ss)
  | .allocExpr _ _, init :: ss => some (("alloc " ++ init) :: ss)
  | .refExpr _ _, var :: ss => some (("&" ++ var) :: ss)
  | .deRefExpr _ _, base :: ss => some (("*" ++ base) :: ss)
  | .notExpr _ _, base :: ss => some (("(not " ++ base ++ ")") :: ss)
  | .negExpr _ _, base :: ss => some (("-(" ++ base ++ ")") :: ss)
  | .indexingExpr _ _ _, index :: base :: ss => some ((base ++ "[" ++ index ++ "]") :: ss)
  | .arrayExpr _ elements, ss =>
    if ss.length < elements.length then none
    else
      some (("[" ++ joinItems ", " (elements.length - 1) (ss.take elements.length).reverse ++ "]") ::
        ss.drop elements.length)
  | .arrayLenExpr _ _, base :: ss => some (("#" ++ base) :: ss)
  | .nullExpr _, ss => some ("null" :: ss)
  | .arrayOfExpr _ _ _, base :: b2 :: ss => some (("[" ++ base ++ " of " ++ b2 ++ "]") :: ss)
  | .recordExpr _ fields, ss => do
    let (fieldsString, ss) ← joinWithDelim ss ", " fields.length 1
    return ("\x7b" ++ fieldsString ++ "\x7d") :: ss
  | .accessExpr _ _ field, accessString :: ss => some ((accessString ++ "." ++ field) :: ss)
  | _, _ => none

/-- `endVisit` of `ASTFieldExpr`. -/
def ASTFieldExpr.endVisit (f : ASTFieldExpr) : List String → Option (List String)
  | init :: ss => some ((f.field ++ ":" ++ init) :: ss)
  | [] => none

/-- `endVisit` of `ASTDeclNode`. -/
def ASTDeclNode.endVisit (d : ASTDeclNode) (ss : List String) : List String :=
  d.name :: ss

/-- `endVisit` of `ASTDeclStmt`. -/
def ASTDeclStmt.endVisit (s : ASTDeclStmt) (indent : String) (ss : List String) :
    Option (List String) := do
  let (vars, ss) ← joinWithDelim ss ", " s.vars.length 1
  return (indent ++ "var " ++ vars ++ ";") :: ss

/-- `endVisit` of the statements, where `indent` is the indentation after it was decreased. -/
def ASTStmt.endVisit (indent : String) : ASTStmt → List String → Option (List String)
  | .updateStmt _ _ increment, updateExpr :: ss =>
    some ((indent ++ updateExpr ++ (if increment then "++" else "--") ++ ";") :: ss)
  | .assignStmt _ _ _, rhsString :: lhsString :: ss =>
    some ((indent ++ lhsString ++ " = " ++ rhsString ++ ";") :: ss)
  | .blockStmt _ stmts, ss => do
    let (stmtsString, ss) ← joinWithDelim ss "\n" stmts.length 0
    return (indent ++ "\x7b\n" ++ stmtsString ++ indent ++ "\x7d") :: ss
  | .whileStmt _ _ _, bodyString :: condString :: ss =>
    some ((indent ++ "while (" ++ condString ++ ") \n" ++ bodyString) :: ss)
  | .forStmt _ _ (.iterator _) _, bodyString :: iteratorString :: itemString :: ss =>
    some ((indent ++ "for (" ++ itemString ++ " : " ++ iteratorString ++ ") \n" ++ bodyString) :: ss)
  | .forStmt _ _ (.range _ _ none) _, bodyString :: rangeEnd :: rangeStart :: itemString :: ss =>
    some ((indent ++ "for (" ++ itemString ++ " : " ++ (rangeStart ++ ".." ++ rangeEnd) ++ ") \n" ++
      bodyString) :: ss)
  | .forStmt _ _ (.range _ _ (some _)) _,
      bodyString :: increment :: rangeEnd :: rangeStart :: itemString :: ss =>
    some ((indent ++ "for (" ++ itemString ++ " : " ++ (rangeStart ++ ".." ++ rangeEnd) ++
      (" by " ++ increment) ++ ") \n" ++ bodyString) :: ss)
  | .ifStmt _ _ _ none, thenString :: condString :: ss =>
    some ((indent ++ "if (" ++ condString ++ ") \n" ++ thenString) :: ss)
  | .ifStmt _ _ _ (some _), elseString :: thenString :: condString :: ss =>
    some ((indent ++ "if (" ++ condString ++ ") \n" ++ thenString ++
      ("\n" ++ indent ++ "else\n" ++ elseString)) :: ss)
  | .outputStmt _ _, argString :: ss => some ((indent ++ "output " ++ argString ++ ";") :: ss)
  | .errorStmt _ _, argString :: ss => some ((indent ++ "error " ++ argString ++ ";") :: ss)
  | _, _ => none

/-- `endVisit` of `ASTReturnStmt`. -/
def ASTReturnStmt.endVisit (indent : String) : List String → Option (List String)
  | argString :: ss => some ((indent ++ "return " ++ argString ++ ";") :: ss)
  | [] => none

/-- `endVisit` of `ASTFunction`. -/
def ASTFunction.endVisit (f : ASTFunction) (ss : List String) : Option (List String) := do
  let (bodyString, ss) ← joinWithDelim ss "\n" (f.body.length + 1) 0
  let (declString, ss) ← joinWithDelim ss "\n" f.declarations.length 0
  let (formalsString, ss) ← joinWithDelim ss ", " f.formals.length 1
  let polyString := if f.isPoly then "poly" else ""
  match ss with
  | [] => none
  | name :: ss =>
    some ((name ++ ("(" ++ formalsString ++ ") " ++ polyString ++ "\n\x7b\n" ++ declString ++
      bodyString ++ "\x7d\n")) :: ss)

/-- The nodes whose `visit` increases the indentation. -/
def ASTNode.indents : ASTNode → Bool
  | .function _ | .stmt (.blockStmt _ _) | .stmt (.whileStmt _ _ _) | .stmt (.forStmt _ _ _ _)
  | .stmt (.ifStmt _ _ _ _) => true
  | _ => false

namespace PrettyPrinter

variable (indentChar : Char) (indentSize : ℕ)

/-- `indent`. -/
def indent (indentLevel : ℕ) : String :=
  String.ofList (List.replicate (indentLevel * indentSize) indentChar)

/-- The `endVisit` methods, at the indentation after it was decreased. -/
def endVisit (indentLevel : ℕ) (ss : List String) : ASTNode → Option (List String)
  | .expr e => e.endVisit ss
  | .fieldExpr f => f.endVisit ss
  | .declNode d => some (d.endVisit ss)
  | .declStmt s => s.endVisit (indent indentChar indentSize indentLevel) ss
  | .stmt s => s.endVisit (indent indentChar indentSize indentLevel) ss
  | .returnStmt _ => ASTReturnStmt.endVisit (indent indentChar indentSize indentLevel) ss
  | .function f => f.endVisit ss

/-- One call. -/
def step (p : PrettyPrinter) : VisitEvent → Option PrettyPrinter
  | .visit n => some { p with indentLevel := p.indentLevel + n.indents.toNat }
  | .endVisit n => do
    let indentLevel := p.indentLevel - n.indents.toNat
    let visitResults ← endVisit indentChar indentSize indentLevel p.visitResults n
    return ⟨visitResults, indentLevel⟩

/-- The calls of a traversal. -/
def visitAll (p : PrettyPrinter) (events : List VisitEvent) : Option PrettyPrinter :=
  events.foldlM (step indentChar indentSize) p

/-- `PrettyPrinter::print`: the traversal, and `endVisit` of the program. -/
def print (program : ASTProgram) : Option String := do
  let p ← visitAll indentChar indentSize ⟨[], 0⟩ program.accept
  let (text, _) ← joinWithDelim p.visitResults "\n" program.functions.length 1
  return text

end PrettyPrinter

/-! ### The text of an expression -/

/-- The items with the delimiter between them. -/
def commaSeparated (items : List String) : String :=
  joinItems ", " (items.length - 1) items

mutual

/-- What the printer writes for an expression. -/
def ASTExpr.text : ASTExpr → String
  | .numberExpr _ val => toString val.toInt
  | .boolExpr _ val => if val then "true" else "false"
  | .inputExpr _ => "input"
  | .nullExpr _ => "null"
  | .variableExpr _ name => name
  | .binaryExpr _ op left right => "(" ++ left.text ++ " " ++ op.text ++ " " ++ right.text ++ ")"
  | .notExpr _ arg => "(not " ++ arg.text ++ ")"
  | .negExpr _ arg => "-(" ++ arg.text ++ ")"
  | .funAppExpr _ function actuals =>
    function.text ++ "(" ++ commaSeparated (ASTExpr.textList actuals) ++ ")"
  | .allocExpr _ initializer => "alloc " ++ initializer.text
  | .refExpr _ var => "&" ++ var.text
  | .deRefExpr _ ptr => "*" ++ ptr.text
  | .recordExpr _ fields => "\x7b" ++ commaSeparated (ASTExpr.textFields fields) ++ "\x7d"
  | .accessExpr _ record field => record.text ++ "." ++ field
  | .ternaryExpr _ condition thenExpr elseExpr =>
    condition.text ++ " ? " ++ thenExpr.text ++ " : " ++ elseExpr.text
  | .arrayExpr _ elements => "[" ++ commaSeparated (ASTExpr.textList elements) ++ "]"
  | .arrayOfExpr _ e1 e2 => "[" ++ e2.text ++ " of " ++ e1.text ++ "]"
  | .indexingExpr _ arr idx => arr.text ++ "[" ++ idx.text ++ "]"
  | .arrayLenExpr _ ptr => "#" ++ ptr.text

def ASTExpr.textList : List ASTExpr → List String
  | [] => []
  | e :: es => e.text :: ASTExpr.textList es

def ASTExpr.textFields : List ASTFieldExpr → List String
  | [] => []
  | .mk _ field initializer :: fs =>
    (field ++ ":" ++ initializer.text) :: ASTExpr.textFields fs

end

theorem length_textList (es : List ASTExpr) : (ASTExpr.textList es).length = es.length := by
  induction es with
  | nil => rfl
  | cons e es ih => rw [ASTExpr.textList, List.length_cons, List.length_cons, ih]

theorem length_textFields (fs : List ASTFieldExpr) :
    (ASTExpr.textFields fs).length = fs.length := by
  induction fs with
  | nil => rfl
  | cons f fs ih =>
    cases f
    rw [ASTExpr.textFields, List.length_cons, List.length_cons, ih]

/-- The last items are taken off the stack and joined. -/
theorem joinWithDelim_reverse {items l : List String} (delim : String) {sz skip : ℕ}
    (hsz : items.length = sz) (hskip : skip ≤ items.length + l.length) :
    joinWithDelim (items.reverse ++ l) delim sz skip =
      some (joinItems delim (sz - skip) items, l) := by
  have hlen : items.reverse.length = sz := by rw [List.length_reverse, hsz]
  rw [joinWithDelim, List.length_append, hlen, if_neg (by omega), List.take_left' hlen,
    List.drop_left' hlen, List.reverse_reverse]

namespace PrettyPrinter

variable {indentChar : Char} {indentSize : ℕ}

theorem visitAll_append (p : PrettyPrinter) (events events' : List VisitEvent) :
    visitAll indentChar indentSize p (events ++ events') =
      (visitAll indentChar indentSize p events).bind
        fun p' ↦ visitAll indentChar indentSize p' events' :=
  List.foldlM_append

/-- At the level, the calls push the texts on every stack that is not empty. -/
def Pushes (indentChar : Char) (indentSize level : ℕ) (events : List VisitEvent)
    (texts : List String) : Prop :=
  ∀ s ss, visitAll indentChar indentSize ⟨s :: ss, level⟩ events =
    some ⟨texts.reverse ++ s :: ss, level⟩

variable {level : ℕ} {events events' : List VisitEvent} {texts texts' : List String}

theorem pushes_nil : Pushes indentChar indentSize level [] [] :=
  fun _ _ ↦ rfl

theorem Pushes.append (h : Pushes indentChar indentSize level events texts)
    (h' : Pushes indentChar indentSize level events' texts') :
    Pushes indentChar indentSize level (events ++ events') (texts ++ texts') := by
  intro s ss
  rw [visitAll_append, h s ss, Option.bind_some, List.reverse_append]
  cases hts : texts.reverse with
  | nil =>
    rw [List.append_nil]
    exact h' s ss
  | cons t ts =>
    rw [List.append_assoc]
    exact h' t (ts ++ s :: ss)

/-- The calls for a node, with those for its children inside. -/
theorem pushes_visiting {n : ASTNode} {text : String}
    (h : Pushes indentChar indentSize (level + n.indents.toNat) events texts)
    (hend : ∀ s ss, endVisit indentChar indentSize level (texts.reverse ++ s :: ss) n =
      some (text :: s :: ss)) :
    Pushes indentChar indentSize level (visiting n events) [text] := by
  intro s ss
  have hvisit : step indentChar indentSize ⟨s :: ss, level⟩ (.visit n) =
      some ⟨s :: ss, level + n.indents.toNat⟩ := rfl
  have hlast : step indentChar indentSize ⟨texts.reverse ++ s :: ss, level + n.indents.toNat⟩
      (.endVisit n) = some ⟨text :: s :: ss, level⟩ := by
    rw [step]
    dsimp only
    rw [Nat.add_sub_cancel, hend]
    rfl
  rw [visiting, List.cons_append, visitAll, List.foldlM_cons, hvisit, Option.bind_eq_bind,
    Option.bind_some]
  change visitAll indentChar indentSize ⟨s :: ss, level + n.indents.toNat⟩
    (events ++ [.endVisit n]) = _
  rw [visitAll_append, h, Option.bind_some, visitAll, List.foldlM_cons, hlast]
  rfl

end PrettyPrinter

open PrettyPrinter

section Expressions

variable {indentChar : Char} {indentSize level : ℕ}

mutual

/-- The printer pushes the text of an expression. -/
theorem ASTExpr.pushes_text : ∀ e : ASTExpr, Pushes indentChar indentSize level e.accept [e.text]
  | .numberExpr _ _ | .boolExpr _ _ | .inputExpr _ | .nullExpr _ | .variableExpr _ _ =>
    pushes_visiting pushes_nil fun _ _ ↦ rfl
  | .binaryExpr _ _ l r =>
    pushes_visiting (l.pushes_text.append r.pushes_text) fun _ _ ↦ rfl
  | .notExpr _ a | .negExpr _ a | .allocExpr _ a | .refExpr _ a | .deRefExpr _ a
  | .accessExpr _ a _ | .arrayLenExpr _ a =>
    pushes_visiting a.pushes_text fun _ _ ↦ rfl
  | .funAppExpr n f as => by
    refine pushes_visiting (f.pushes_text.append (pushes_textList as)) fun s ss ↦ ?_
    have hjoin := joinWithDelim_reverse (l := f.text :: s :: ss) ", " (length_textList as)
      (show 1 ≤ _ by simp only [List.length_cons]; omega)
    rw [List.reverse_append, List.append_assoc]
    simp only [endVisit, ASTExpr.endVisit, List.reverse_singleton, List.singleton_append, hjoin,
      Option.bind_eq_bind, Option.bind_some, ASTExpr.text, commaSeparated, length_textList]
  | .recordExpr n fs => by
    refine pushes_visiting (pushes_textFields fs) fun s ss ↦ ?_
    have hjoin := joinWithDelim_reverse (l := s :: ss) ", " (length_textFields fs)
      (show 1 ≤ _ by simp only [List.length_cons]; omega)
    simp only [endVisit, ASTExpr.endVisit, hjoin, Option.bind_eq_bind, Option.bind_some,
      ASTExpr.text, commaSeparated, length_textFields]
    rfl
  | .ternaryExpr _ c t f =>
    pushes_visiting ((c.pushes_text.append t.pushes_text).append f.pushes_text) fun _ _ ↦ rfl
  | .arrayExpr n es => by
    refine pushes_visiting (pushes_textList es) fun s ss ↦ ?_
    have hlen : (ASTExpr.textList es).reverse.length = es.length := by
      rw [List.length_reverse, length_textList]
    rw [endVisit, ASTExpr.endVisit, if_neg (by rw [List.length_append]; omega),
      List.take_left' hlen, List.drop_left' hlen, List.reverse_reverse, ASTExpr.text,
      commaSeparated, length_textList]
  | .arrayOfExpr _ a b | .indexingExpr _ a b =>
    pushes_visiting (a.pushes_text.append b.pushes_text) fun _ _ ↦ rfl

theorem pushes_textList : ∀ es : List ASTExpr,
    Pushes indentChar indentSize level (ASTExpr.acceptList es) (ASTExpr.textList es)
  | [] => pushes_nil
  | e :: es => e.pushes_text.append (pushes_textList es)

theorem pushes_textFields : ∀ fs : List ASTFieldExpr,
    Pushes indentChar indentSize level (ASTExpr.acceptFields fs) (ASTExpr.textFields fs)
  | [] => pushes_nil
  | .mk _ _ e :: fs =>
    (pushes_visiting e.pushes_text fun _ _ ↦ rfl).append (pushes_textFields fs)

end

end Expressions

end Sipc
