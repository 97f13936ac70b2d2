import Mathlib.Data.Int.Notation
import Sipc.Frontend.ExprParserCorrectness
import Sipc.Frontend.Shape

/-!
# Where the parentheses are

Which parentheses group an expression and which belong to a call can be read off the tokens alone, and
so can the number of nodes inside a pair of parentheses and the number of operations that stand there
outside of further brackets (`ExprContext.NegsOk.scans`). So trees with the same tokens have the same
groups (`grouped_of_tokens_eq`).
-/

set_option autoImplicit false
set_option relaxedAutoImplicit false

namespace Sipc

/-! ### What a tree says about its groups -/

mutual

/-- The binary operations and `not` that are outside all parentheses and brackets. -/
def ExprContext.ops : ExprContext → ℕ
  | .funAppExpr e _ | .accessExpr e _ | .deRefExpr e | .arrayIndexingExpr e _ | .negExpr e
  | .refExpr e | .arrayLenExpr e | .allocExpr e => e.ops
  | .notExpr e => e.ops + 1
  | .multiplicativeExpr _ l r | .additiveExpr _ l r | .relationalExpr _ l r | .equalityExpr _ l r
  | .nonShortCircuiting _ l r | .boolOps _ l r => l.ops + 1 + r.ops
  | .ternaryExpr c e f => c.ops + e.ops + f.ops
  | _ => 0

def ExprContext.opsList : List ExprContext → ℕ
  | [] => 0
  | e :: es => e.ops + ExprContext.opsList es

def ExprContext.opsFields : List FieldExprContext → ℕ
  | [] => 0
  | .mk _ e :: fs => e.ops + ExprContext.opsFields fs

end

/-- What a pair of parentheses with `n` nodes inside counts. -/
def groupValue (afterMinus : Bool) (n : ℕ) : ℤ :=
  if afterMinus then -n else n

mutual

/-- What the parentheses count, where the expression may follow a unary minus. -/
def ExprContext.value : ExprContext → Bool → ℤ
  | .funAppExpr e es, b => e.value b + ExprContext.valueList es
  | .accessExpr e _, b => e.value b
  | .arrayIndexingExpr e i, b => e.value b + i.value false
  | .multiplicativeExpr _ l r, b | .additiveExpr _ l r, b | .relationalExpr _ l r, b
  | .equalityExpr _ l r, b | .nonShortCircuiting _ l r, b | .boolOps _ l r, b =>
    l.value b + r.value false
  | .ternaryExpr c e f, b => c.value b + e.value false + f.value false
  | .deRefExpr e, _ | .refExpr e, _ | .arrayLenExpr e, _ | .allocExpr e, _ | .notExpr e, _ =>
    e.value false
  | .negExpr e, _ => e.value true
  | .recordRule fs, _ => ExprContext.valueFields fs
  | .arrayLiteral es, _ => ExprContext.valueList es
  | .arrayOfExpr e1 e2, _ => e1.value false + e2.value false
  | .parenExpr e, b => e.value false + groupValue b e.shape.size
  | _, _ => 0

def ExprContext.valueList : List ExprContext → ℤ
  | [] => 0
  | e :: es => e.value false + ExprContext.valueList es

def ExprContext.valueFields : List FieldExprContext → ℤ
  | [] => 0
  | .mk _ e :: fs => e.value false + ExprContext.valueFields fs

end

/-- The number of operations in a pair of parentheses is as printed. -/
def groupFits (afterMinus : Bool) (ops : ℕ) : Bool :=
  if afterMinus then ops == 0 else ops == 1

mutual

/-- Every unary minus is before parentheses, the parentheses after one have no operation, all others
one, and brackets none. -/
def ExprContext.grouped : ExprContext → Bool → Bool
  | .funAppExpr e es, b =>
    e.grouped b && (ExprContext.groupedList es && ExprContext.opsList es == 0)
  | .accessExpr e _, b => e.grouped b
  | .arrayIndexingExpr e i, b => e.grouped b && (i.grouped false && i.ops == 0)
  | .multiplicativeExpr _ l r, b | .additiveExpr _ l r, b | .relationalExpr _ l r, b
  | .equalityExpr _ l r, b | .nonShortCircuiting _ l r, b | .boolOps _ l r, b =>
    l.grouped b && r.grouped false
  | .ternaryExpr c e f, b => c.grouped b && (e.grouped false && f.grouped false)
  | .deRefExpr e, b | .refExpr e, b | .arrayLenExpr e, b | .allocExpr e, b | .notExpr e, b =>
    !b && e.grouped false
  | .negExpr e, b => !b && e.grouped true
  | .recordRule fs, b => !b && (ExprContext.groupedFields fs && ExprContext.opsFields fs == 0)
  | .arrayLiteral es, b => !b && (ExprContext.groupedList es && ExprContext.opsList es == 0)
  | .arrayOfExpr e1 e2, b =>
    !b && ((e1.grouped false && e2.grouped false) && e1.ops + e2.ops == 0)
  | .parenExpr e, b => e.grouped false && groupFits b e.ops
  | .negNumber _, b | .varExpr _, b | .numExpr _, b | .inputExpr, b | .nullExpr, b
  | .boolExpr _, b => !b

def ExprContext.groupedList : List ExprContext → Bool
  | [] => true
  | e :: es => e.grouped false && ExprContext.groupedList es

def ExprContext.groupedFields : List FieldExprContext → Bool
  | [] => true
  | .mk _ e :: fs => e.grouped false && ExprContext.groupedFields fs

end

/-! ### Reading it off the tokens -/

/-- What may come next: an expression, the parentheses after a unary minus (or a number), the name of
a field, or something that goes on after an expression. -/
inductive ScanMode
  | start | minus | field | ended
  deriving DecidableEq

/-- What was opened: a call, a record or an array, or parentheses around an expression. -/
inductive Opened
  | bracket
  | group (afterMinus : Bool)

/-- The nodes and operations so far inside what was opened last, those outside of what was opened and
not closed, and what the parentheses counted. -/
structure ScanState where
  mode : ScanMode
  size : ℕ
  ops : ℕ
  value : ℤ
  outer : List (Opened × ℕ × ℕ)

namespace ScanState

/-- A node is counted, or none, and the mode changes. -/
def count (s : ScanState) (mode : ScanMode) (size ops : ℕ) : ScanState :=
  { s with mode := mode, size := s.size + size, ops := s.ops + ops }

/-- Something is opened. -/
def push (s : ScanState) (o : Opened) (size : ℕ) : ScanState where
  mode := .start
  size := 0
  ops := 0
  value := s.value
  outer := (o, s.size + size, s.ops) :: s.outer

/-- What was opened last is closed. -/
def close (s : ScanState) : Option ScanState :=
  match s.outer with
  | [] => none
  | (.bracket, n, k) :: outer =>
    if s.ops == 0 then some ⟨.ended, n + s.size, k, s.value, outer⟩ else none
  | (.group b, n, k) :: outer =>
    if groupFits b s.ops then some ⟨.ended, n + s.size, k, s.value + groupValue b s.size, outer⟩
    else none

/-- One token. -/
def step (s : ScanState) (t : Token) : Option ScanState :=
  match s.mode, t with
  | .start, .lparen => some (s.push (.group false) 0)
  | .start, .lbracket | .start, .lbrace => some (s.push .bracket 1)
  | .start, .sub => some (s.count .minus 0 0)
  | .start, .mul | .start, .land | .start, .hash | .start, .kAlloc => some (s.count .start 1 0)
  | .start, .kNot => some (s.count .start 1 1)
  | .start, .identifier _ | .start, .number _ | .start, .kInput | .start, .kNull | .start, .kTrue
  | .start, .kFalse => some (s.count .ended 1 0)
  | .start, .rparen | .start, .rbracket | .start, .rbrace => s.close
  | .minus, .number _ => some (s.count .ended 1 0)
  | .minus, .lparen => some (s.push (.group true) 1)
  | .field, .identifier _ => some (s.count .ended 0 0)
  | .ended, .rparen | .ended, .rbracket | .ended, .rbrace => s.close
  | .ended, .lparen | .ended, .lbracket => some (s.push .bracket 1)
  | .ended, .dot => some (s.count .field 1 0)
  | .ended, .question => some (s.count .start 1 0)
  | .ended, .comma | .ended, .colon | .ended, .kOf => some (s.count .start 0 0)
  | .ended, op => if (binaryContext op).isSome then some (s.count .start 1 1) else none
  | _, _ => none

/-- All tokens. -/
def scan (s : ScanState) : List Token → Option ScanState
  | [] => some s
  | t :: ts => (s.step t).bind fun s ↦ s.scan ts

/-- After an expression. -/
def after (s : ScanState) (e : ExprContext) (b : Bool) : ScanState where
  mode := .ended
  size := s.size + b.toNat + e.shape.size
  ops := s.ops + e.ops
  value := s.value + e.value b
  outer := s.outer

end ScanState

mutual

/-- No operand of a unary minus begins with a number. -/
def ExprContext.NegsOk : ExprContext → Prop
  | .funAppExpr e es => e.NegsOk ∧ ExprContext.NegsOkList es
  | .accessExpr e _ | .deRefExpr e | .refExpr e | .arrayLenExpr e | .allocExpr e | .notExpr e
  | .parenExpr e => e.NegsOk
  | .negExpr e => ¬ e.leadsWithNumber ∧ e.NegsOk
  | .arrayIndexingExpr l r | .multiplicativeExpr _ l r | .additiveExpr _ l r | .relationalExpr _ l r
  | .equalityExpr _ l r | .nonShortCircuiting _ l r | .boolOps _ l r | .arrayOfExpr l r =>
    l.NegsOk ∧ r.NegsOk
  | .ternaryExpr c e f => c.NegsOk ∧ e.NegsOk ∧ f.NegsOk
  | .recordRule fs => ExprContext.NegsOkFields fs
  | .arrayLiteral es => ExprContext.NegsOkList es
  | .negNumber _ | .varExpr _ | .numExpr _ | .inputExpr | .nullExpr | .boolExpr _ => True

def ExprContext.NegsOkList : List ExprContext → Prop
  | [] => True
  | e :: es => e.NegsOk ∧ ExprContext.NegsOkList es

def ExprContext.NegsOkFields : List FieldExprContext → Prop
  | [] => True
  | .mk _ e :: fs => e.NegsOk ∧ ExprContext.NegsOkFields fs

end

mutual

theorem ExprContext.Respects.negsOk : ∀ {e : ExprContext}, e.Respects → e.NegsOk
  | .funAppExpr _ _, ⟨_, he, hes⟩ => ⟨he.negsOk, respectsList_negsOk hes⟩
  | .accessExpr _ _, ⟨_, he⟩ | .deRefExpr _, ⟨_, he⟩ | .refExpr _, ⟨_, he⟩ | .arrayLenExpr _, ⟨_, he⟩
  | .allocExpr _, ⟨_, he⟩ | .notExpr _, ⟨_, he⟩ => he.negsOk
  | .parenExpr e, he => by
    have h : e.Respects := he
    exact h.negsOk
  | .negExpr _, ⟨_, hlead, he⟩ => ⟨hlead, he.negsOk⟩
  | .arrayIndexingExpr _ _, ⟨_, hl, hr⟩ | .multiplicativeExpr _ _ _, ⟨_, hl, hr⟩
  | .additiveExpr _ _ _, ⟨_, hl, hr⟩ | .relationalExpr _ _ _, ⟨_, hl, hr⟩
  | .equalityExpr _ _ _, ⟨_, hl, hr⟩ | .nonShortCircuiting _ _ _, ⟨_, hl, hr⟩
  | .boolOps _ _ _, ⟨_, hl, hr⟩ => ⟨hl.negsOk, hr.negsOk⟩
  | .arrayOfExpr _ _, ⟨hl, hr⟩ => ⟨hl.negsOk, hr.negsOk⟩
  | .ternaryExpr _ _ _, ⟨_, hc, he, hf⟩ => ⟨hc.negsOk, he.negsOk, hf.negsOk⟩
  | .recordRule _, hfs => respectsFields_negsOk hfs
  | .arrayLiteral _, hes => respectsList_negsOk hes
  | .negNumber _, _ | .varExpr _, _ | .numExpr _, _ | .inputExpr, _ | .nullExpr, _
  | .boolExpr _, _ => trivial

theorem respectsList_negsOk : ∀ {es : List ExprContext}, ExprContext.RespectsList es →
    ExprContext.NegsOkList es
  | [], _ => trivial
  | _ :: _, ⟨he, hes⟩ => ⟨he.negsOk, respectsList_negsOk hes⟩

theorem respectsFields_negsOk : ∀ {fs : List FieldExprContext}, ExprContext.RespectsFields fs →
    ExprContext.NegsOkFields fs
  | [], _ => trivial
  | .mk _ _ :: _, ⟨he, hfs⟩ => ⟨he.negsOk, respectsFields_negsOk hfs⟩

end

/-- Goes on only where the test succeeds. -/
def check {α : Type} (b : Bool) (x : Option α) : Option α :=
  if b then x else none

theorem check_and {α : Type} (a b : Bool) (x : Option α) : check (a && b) x = check a (check b x) := by
  cases a <;> rfl

namespace ScanState

theorem scan_cons (s : ScanState) (t : Token) (ts : List Token) :
    s.scan (t :: ts) = (s.step t).bind fun s ↦ s.scan ts :=
  rfl

/-- The mode in which an expression may come, after a unary minus or not. -/
def startMode (b : Bool) : ScanMode :=
  if b then .minus else .start

/-- `e` is scanned from the mode given by `b` as the tree says. -/
abbrev Scans (e : ExprContext) : Prop :=
  ∀ (s : ScanState) (b : Bool) (rest : List Token), s.mode = startMode b →
    (b → ¬ e.leadsWithNumber) →
    s.scan (e.tokens ++ rest) = check (e.grouped b) ((s.after e b).scan rest)

theorem scans_leaf {e : ExprContext} {op : Token} (htokens : e.tokens = [op])
    (hstart : ∀ s : ScanState, s.mode = .start → s.step op = some (s.count .ended 1 0))
    (hminus : ∀ s : ScanState, s.mode = .minus → ¬ e.leadsWithNumber → s.step op = none)
    (hgrouped : ∀ b, e.grouped b = !b) (hsize : e.shape.size = 1) (hops : e.ops = 0)
    (hvalue : ∀ b, e.value b = 0) : Scans e := by
  intro s b rest hs hb
  rw [htokens, List.singleton_append, scan_cons, hgrouped]
  cases b with
  | true => 
    rw [hminus s hs (hb rfl)]
    rfl
  | false =>
    rw [hstart s hs]
    have h : s.after e false = s.count .ended 1 0 := by
      simp [after, count, hsize, hops, hvalue]
    rw [h]
    rfl

theorem scans_prefix {e : ExprContext} {mk : ExprContext → ExprContext} {op : Token} (k : ℕ)
    (he : Scans e) (htokens : (mk e).tokens = op :: e.tokens)
    (hstart : ∀ s : ScanState, s.mode = .start → s.step op = some (s.count .start 1 k))
    (hminus : ∀ s : ScanState, s.mode = .minus → s.step op = none)
    (hgrouped : ∀ b, (mk e).grouped b = (!b && e.grouped false))
    (hsize : (mk e).shape.size = e.shape.size + 1) (hops : (mk e).ops = e.ops + k)
    (hvalue : ∀ b, (mk e).value b = e.value false) : Scans (mk e) := by
  intro s b rest hs _
  rw [htokens, List.cons_append, scan_cons, hgrouped]
  cases b with
  | true =>
    rw [hminus s hs]
    rfl
  | false =>
    rw [hstart s hs, Option.bind_some, he _ false rest rfl nofun, Bool.not_false, Bool.true_and]
    have h : (s.count .start 1 k).after e false = s.after (mk e) false := by
      simp [after, count, hsize, hops, hvalue]
      omega
    rw [h]

/-- A left operand and what comes after it. -/
theorem scans_left {e l : ExprContext} {ts : List Token} {g : Bool} (size : ℕ) {ops : ℕ} {value : ℤ}
    (hl : Scans l) (htokens : e.tokens = l.tokens ++ ts)
    (hts : ∀ (s : ScanState) (rest : List Token), s.mode = .ended → s.scan (ts ++ rest) =
      check g (scan ⟨.ended, s.size + size, s.ops + ops, s.value + value, s.outer⟩ rest))
    (hgrouped : ∀ b, e.grouped b = (l.grouped b && g)) (hsize : e.shape.size = l.shape.size + size)
    (hops : e.ops = l.ops + ops) (hvalue : ∀ b, e.value b = l.value b + value)
    (hleads : e.leadsWithNumber = l.leadsWithNumber) : Scans e := by
  intro s b rest hs hb
  rw [htokens, List.append_assoc, hl s b _ hs (hleads ▸ hb), hgrouped, check_and,
    hts _ _ (by rfl)]
  simp only [after, hsize, hops, hvalue, Nat.add_assoc, Int.add_assoc]

/-- After `ts`, which is inside brackets that were opened in front of it. -/
theorem scan_bracket {s : ScanState} {ts rest : List Token} {g : Bool} {size ops n : ℕ} {value : ℤ}
    {t : Token} (ht : t = .rparen ∨ t = .rbracket ∨ t = .rbrace) {m : ScanMode}
    (hm : m = .start ∨ m = .ended)
    (h : (s.push .bracket n).scan (ts ++ t :: rest) =
      check g (scan ⟨m, size, ops, s.value + value, (.bracket, s.size + n, s.ops) :: s.outer⟩
        (t :: rest))) :
    (s.push .bracket n).scan (ts ++ t :: rest) = check (g && ops == 0)
      (scan ⟨.ended, s.size + n + size, s.ops, s.value + value, s.outer⟩ rest) := by
  rw [h, check_and, scan_cons]
  have hstep : ∀ s' : ScanState, s'.mode = m → s'.step t = s'.close := by
    intro s' hs'
    rcases ht with rfl | rfl | rfl <;> rcases hm with rfl | rfl <;> simp only [step, hs']
  rw [hstep _ rfl, close]
  dsimp only
  cases ops == 0 <;> rfl

/-- Operands with commas between them. -/
theorem scan_commas (s : ScanState) (hs : s.mode = .start) {es : List ExprContext}
    (hes : es ≠ []) (h : ∀ e ∈ es, Scans e) (rest : List Token) :
    s.scan (commas (ExprContext.tokensList es) ++ rest) = check (ExprContext.groupedList es)
      (scan ⟨.ended, s.size + Shape.sizeList (ExprContext.shapeList es),
        s.ops + ExprContext.opsList es, s.value + ExprContext.valueList es, s.outer⟩ rest) := by
  induction es generalizing s with
  | nil => exact absurd rfl hes
  | cons e es ih =>
    cases es with
    | nil =>
      rw [ExprContext.tokensList, ExprContext.tokensList, commas,
        h e List.mem_cons_self s false rest hs nofun]
      simp [ExprContext.groupedList, after, ExprContext.shapeList, Shape.sizeList,
        ExprContext.opsList, ExprContext.valueList]
    | cons e' es =>
      rw [ExprContext.tokensList, ExprContext.tokensList, commas, List.append_assoc,
        List.cons_append, h e List.mem_cons_self s false _ hs nofun, scan_cons]
      have hstep : (s.after e false).step .comma = some ((s.after e false).count .start 0 0) := rfl
      rw [hstep, Option.bind_some, ← ExprContext.tokensList,
        ih _ rfl (List.cons_ne_nil e' es) fun e'' he'' ↦ h e'' (List.mem_cons_of_mem e he'')]
      rw [← check_and]
      simp only [after, count, ExprContext.shapeList, Shape.sizeList, ExprContext.opsList,
        ExprContext.valueList, Nat.add_zero, Nat.add_assoc, Int.add_assoc, Bool.toNat_false]
      rfl

/-- Operands in brackets. -/
theorem scan_brackets {s : ScanState} {es : List ExprContext} {rest : List Token} {t : Token} {n : ℕ}
    (ht : t = .rparen ∨ t = .rbracket ∨ t = .rbrace) (h : ∀ e ∈ es, Scans e) :
    (s.push .bracket n).scan (commas (ExprContext.tokensList es) ++ t :: rest) =
      check (ExprContext.groupedList es && ExprContext.opsList es == 0)
        (scan ⟨.ended, s.size + (n + Shape.sizeList (ExprContext.shapeList es)), s.ops,
          s.value + ExprContext.valueList es, s.outer⟩ rest) := by
  rw [← Nat.add_assoc]
  cases es with
  | nil =>
    refine scan_bracket ht (.inl rfl) ?_
    simp only [push, commas, ExprContext.tokensList, ExprContext.valueList, Int.add_zero,
      ExprContext.shapeList, Shape.sizeList, ExprContext.opsList, ExprContext.groupedList]
    rfl
  | cons e es =>
    refine scan_bracket ht (.inr rfl) ?_
    rw [scan_commas _ rfl (List.cons_ne_nil e es) h]
    simp only [push, Nat.zero_add]

/-- The fields of a record with commas between them. -/
theorem scan_commas_fields (s : ScanState) (hs : s.mode = .start) {fs : List FieldExprContext}
    (hfs : fs ≠ []) (h : ∀ f ∈ fs, ∀ x e, f = .mk x e → Scans e) (rest : List Token) :
    s.scan (commas (ExprContext.tokensFields fs) ++ rest) = check (ExprContext.groupedFields fs)
      (scan ⟨.ended, s.size + Shape.sizeList (ExprContext.shapeFields fs),
        s.ops + ExprContext.opsFields fs, s.value + ExprContext.valueFields fs, s.outer⟩ rest) := by
  have hname : ∀ (s : ScanState) (x : Identifier) (e : ExprContext) (rest : List Token),
      s.mode = .start → Scans e →
      s.scan (.identifier x :: .colon :: (e.tokens ++ rest)) = check (e.grouped false)
        (scan ((s.count .start 1 0).after e false) rest) := by
    intro s x e rest hs he
    have hx : s.step (.identifier x) = some (s.count .ended 1 0) := by simp only [step, hs]
    have hcolon : (s.count .ended 1 0).step .colon = some (s.count .start 1 0) := rfl
    rw [scan_cons, hx, Option.bind_some, scan_cons, hcolon, Option.bind_some,
      he _ false rest rfl nofun]
  induction fs generalizing s with
  | nil => exact absurd rfl hfs
  | cons f fs ih =>
    obtain ⟨x, e⟩ := f
    have he : Scans e := h _ List.mem_cons_self x e rfl
    cases fs with
    | nil =>
      rw [ExprContext.tokensFields, ExprContext.tokensFields, commas, List.cons_append,
        List.cons_append, hname s x e rest hs he]
      simp only [ExprContext.groupedFields, after, count, ExprContext.shapeFields, Shape.sizeList,
        Shape.size, ExprContext.opsFields, ExprContext.valueFields, Nat.add_zero, Nat.add_assoc,
        Int.add_zero, Bool.toNat_false, Bool.and_true, Nat.add_comm 1]
    | cons f' fs =>
      obtain ⟨x', e'⟩ := f'
      rw [ExprContext.tokensFields, ExprContext.tokensFields, commas, List.append_assoc,
        List.cons_append, List.cons_append, hname s x e _ hs he, List.cons_append, scan_cons]
      have hstep : ((s.count .start 1 0).after e false).step .comma =
        some (((s.count .start 1 0).after e false).count .start 0 0) := rfl
      rw [hstep, Option.bind_some, ← ExprContext.tokensFields,
        ih _ rfl (List.cons_ne_nil _ fs) fun f hf ↦ h f (List.mem_cons_of_mem _ hf), ← check_and]
      simp only [after, count, ExprContext.shapeFields, Shape.sizeList, Shape.size,
        ExprContext.opsFields, ExprContext.valueFields, Nat.add_zero, Nat.add_assoc, Int.add_assoc,
        Bool.toNat_false, Nat.add_comm 1]
      rfl

/-- The fields of a record in braces. -/
theorem scan_record {s : ScanState} {fs : List FieldExprContext} {rest : List Token}
    (h : ∀ f ∈ fs, ∀ x e, f = .mk x e → Scans e) :
    (s.push .bracket 1).scan (commas (ExprContext.tokensFields fs) ++ .rbrace :: rest) =
      check (ExprContext.groupedFields fs && ExprContext.opsFields fs == 0)
        (scan ⟨.ended, s.size + (1 + Shape.sizeList (ExprContext.shapeFields fs)), s.ops,
          s.value + ExprContext.valueFields fs, s.outer⟩ rest) := by
  rw [← Nat.add_assoc]
  cases fs with
  | nil =>
    refine scan_bracket (.inr (.inr rfl)) (.inl rfl) ?_
    simp only [push, commas, ExprContext.tokensFields, ExprContext.valueFields, Int.add_zero,
      ExprContext.shapeFields, Shape.sizeList, ExprContext.opsFields, ExprContext.groupedFields]
    rfl
  | cons f fs =>
    refine scan_bracket (.inr (.inr rfl)) (.inr rfl) ?_
    rw [scan_commas_fields _ rfl (List.cons_ne_nil f fs) h]
    simp only [push, Nat.zero_add]

/-- A record or an array, from what is inside the brackets. -/
theorem scans_bracketed {e : ExprContext} {opening : Token} {g : Bool} {ops : ℕ} {value : ℤ}
    (size : ℕ) (ts : List Token) (closing : Token)
    (hopening : opening = .lbracket ∨ opening = .lbrace)
    (htokens : e.tokens = opening :: ts ++ [closing])
    (hts : ∀ (s : ScanState) (rest : List Token), s.mode = .start →
      (s.push .bracket 1).scan (ts ++ closing :: rest) = check (g && ops == 0)
        (scan ⟨.ended, s.size + (1 + size), s.ops, s.value + value, s.outer⟩ rest))
    (hgrouped : ∀ b, e.grouped b = (!b && (g && ops == 0))) (hsize : e.shape.size = size + 1)
    (hops : e.ops = 0) (hvalue : ∀ b, e.value b = value) : Scans e := by
  intro s b rest hs _
  rw [htokens, List.cons_append, List.cons_append, List.append_assoc, scan_cons, hgrouped]
  cases b with
  | true =>
    have hstep : s.step opening = none := by
      rcases hopening with rfl | rfl <;> simp only [step, hs, startMode, if_true]
    rw [hstep]
    rfl
  | false =>
    have hstep : s.step opening = some (s.push .bracket 1) := by
      rcases hopening with rfl | rfl <;> simp only [step, hs, startMode] <;> rfl
    rw [hstep, Option.bind_some, List.singleton_append, hts s rest hs, Bool.not_false, Bool.true_and]
    simp only [after, hsize, hops, hvalue, Bool.toNat_false, Nat.add_zero, Nat.add_comm 1]

theorem step_binary {op : Token} {c : ℕ × (ExprContext → ExprContext → ExprContext)}
    (hop : binaryContext op = some c) (s : ScanState) (hs : s.mode = .ended) :
    s.step op = some (s.count .start 1 1) := by
  cases op
  all_goals first
    | (cases hop; done)
    | (simp only [step, hs]; rfl)

theorem size_binary (label : NodeLabel) (l r : ExprContext) :
    (Shape.node label [l.shape, r.shape]).size = l.shape.size + (1 + r.shape.size) := by
  simp only [Shape.size, Shape.sizeList]
  omega

theorem scans_binary {op : Token} {k : ℕ} {mk : ExprContext → ExprContext → ExprContext}
    {l r : ExprContext} (hop : IsBinary op k mk) (hl : Scans l) (hr : Scans r)
    (hstep : ∀ s : ScanState, s.mode = .ended → s.step op = some (s.count .start 1 1))
    (hgrouped : ∀ b, (mk l r).grouped b = (l.grouped b && r.grouped false))
    (hsize : (mk l r).shape.size = l.shape.size + (1 + r.shape.size))
    (hops : (mk l r).ops = l.ops + (1 + r.ops))
    (hvalue : ∀ b, (mk l r).value b = l.value b + r.value false) : Scans (mk l r) := by
  refine scans_left _ hl (hop.tokens l r) (fun s rest hs ↦ ?_) hgrouped hsize hops hvalue
    (hop.leads l r)
  rw [List.cons_append, scan_cons, hstep s hs, Option.bind_some, hr _ false rest rfl nofun]
  simp only [after, count, Bool.toNat_false, Nat.add_zero, Nat.add_assoc]

end ScanState

open ScanState

mutual

/-- The tokens of a tree are scanned as the tree says, by induction on the tree. -/
theorem ExprContext.NegsOk.scans : ∀ {e : ExprContext}, e.NegsOk → Scans e
  | .funAppExpr f es, ⟨hf, hes⟩ => by
    refine scans_left (1 + Shape.sizeList (ExprContext.shapeList es)) hf.scans
      (List.append_assoc _ _ _) (fun s rest hs ↦ ?_) (fun _ ↦ rfl) ?_ (Nat.add_zero f.ops).symm
      (fun _ ↦ rfl) rfl
    · have hstep : s.step .lparen = some (s.push .bracket 1) := by simp only [step, hs]
      rw [List.cons_append, List.cons_append, scan_cons, hstep, Option.bind_some, List.append_assoc]
      exact scan_brackets (.inl rfl) (negsOkList_scans hes)
    · simp only [ExprContext.shape, Shape.size, Shape.sizeList]
      omega
  | .accessExpr e x, he => by
    have h : e.NegsOk := he
    refine scans_left 1 h.scans rfl (fun s rest hs ↦ ?_)
      (fun b ↦ (Bool.and_true (e.grouped b)).symm) rfl (Nat.add_zero e.ops).symm (fun b ↦ (Int.add_zero (e.value b)).symm) rfl
    have hdot : s.step .dot = some (s.count .field 1 0) := by simp only [step, hs]
    have hx : (s.count .field 1 0).step (.identifier x) = some (s.count .ended 1 0) := rfl
    rw [List.cons_append, scan_cons, hdot, Option.bind_some, List.singleton_append, scan_cons, hx,
      Option.bind_some]
    simp only [check, count, if_true, Int.add_zero]
  | .deRefExpr e, he => by
    have h : e.NegsOk := he
    exact scans_prefix 0 h.scans rfl (fun s hs ↦ by simp only [step, hs])
      (fun s hs ↦ by simp only [step, hs]) (fun _ ↦ rfl) rfl rfl (fun _ ↦ rfl)
  | .refExpr e, he => by
    have h : e.NegsOk := he
    exact scans_prefix 0 h.scans rfl (fun s hs ↦ by simp only [step, hs])
      (fun s hs ↦ by simp only [step, hs]) (fun _ ↦ rfl) rfl rfl (fun _ ↦ rfl)
  | .arrayLenExpr e, he => by
    have h : e.NegsOk := he
    exact scans_prefix 0 h.scans rfl (fun s hs ↦ by simp only [step, hs])
      (fun s hs ↦ by simp only [step, hs]) (fun _ ↦ rfl) rfl rfl (fun _ ↦ rfl)
  | .allocExpr e, he => by
    have h : e.NegsOk := he
    exact scans_prefix 0 h.scans rfl (fun s hs ↦ by simp only [step, hs])
      (fun s hs ↦ by simp only [step, hs]) (fun _ ↦ rfl) rfl rfl (fun _ ↦ rfl)
  | .notExpr e, he => by
    have h : e.NegsOk := he
    exact scans_prefix 1 h.scans rfl (fun s hs ↦ by simp only [step, hs])
      (fun s hs ↦ by simp only [step, hs]) (fun _ ↦ rfl) rfl rfl (fun _ ↦ rfl)
  | .parenExpr e, he => by
    have h : e.NegsOk := he
    intro s b rest hs hlead
    have hstep : s.step .lparen = some (s.push (.group b) b.toNat) := by
      cases b <;> simp only [step, hs, startMode] <;> rfl
    rw [ExprContext.tokens, List.cons_append, List.cons_append, List.append_assoc, scan_cons, hstep,
      Option.bind_some, h.scans _ false _ rfl nofun, ExprContext.grouped, check_and,
      List.singleton_append, scan_cons]
    congr 1
    have hclose : ((s.push (.group b) b.toNat).after e false).step .rparen =
      ((s.push (.group b) b.toNat).after e false).close := rfl
    rw [hclose, close]
    simp only [after, push, Nat.zero_add, Bool.toNat_false, Nat.add_zero]
    cases groupFits b e.ops with
    | true => 
      simp only [check, if_true, Option.bind_some, ExprContext.shape, ExprContext.ops,
        ExprContext.value, Nat.add_zero, Int.add_assoc]
    | false => rfl
  | .negExpr e, ⟨hlead, he⟩ => by
    intro s b rest hs _
    rw [ExprContext.tokens, List.cons_append, scan_cons, ExprContext.grouped]
    cases b with
    | true =>
      have hstep : s.step .sub = none := by simp only [step, hs, startMode, if_true]
      rw [hstep]
      rfl
    | false =>
      have hstep : s.step .sub = some (s.count .minus 0 0) := by simp only [step, hs, startMode]; rfl
      rw [hstep, Option.bind_some, he.scans _ true rest rfl fun _ ↦ hlead]
      have h : (s.count .minus 0 0).after e true = s.after (.negExpr e) false := by
        simp only [after, count, ExprContext.shape, Shape.size, Shape.sizeList, ExprContext.ops,
          ExprContext.value, Bool.toNat_true, Bool.toNat_false, Nat.add_zero, Nat.add_assoc,
          Nat.add_comm 1]
      rw [h]
      rfl
  | .arrayIndexingExpr l r, ⟨hl, hr⟩ => by
    refine scans_left (1 + r.shape.size) hl.scans (List.append_assoc _ _ _) (fun s rest hs ↦ ?_)
      (fun _ ↦ rfl) ?_ (Nat.add_zero l.ops).symm (fun _ ↦ rfl) rfl
    · have hstep : s.step .lbracket = some (s.push .bracket 1) := by simp only [step, hs]
      rw [List.cons_append, List.cons_append, scan_cons, hstep, Option.bind_some, List.append_assoc,
        ← Nat.add_assoc]
      refine scan_bracket (.inr (.inl rfl)) (.inr rfl) ?_
      rw [hr.scans _ false _ rfl nofun]
      simp only [after, push, Nat.zero_add, Bool.toNat_false]
    · simp only [ExprContext.shape, Shape.size, Shape.sizeList]
      omega
  | .multiplicativeExpr op l r, ⟨hl, hr⟩ =>
    scans_binary (isBinary_of_context (binaryContext_multiplicative op)) hl.scans hr.scans
      (step_binary (binaryContext_multiplicative op)) (fun _ ↦ rfl) (size_binary _ l r)
      (Nat.add_assoc l.ops 1 r.ops) (fun _ ↦ rfl)
  | .additiveExpr op l r, ⟨hl, hr⟩ =>
    scans_binary (isBinary_of_context (binaryContext_additive op)) hl.scans hr.scans
      (step_binary (binaryContext_additive op)) (fun _ ↦ rfl) (size_binary _ l r)
      (Nat.add_assoc l.ops 1 r.ops) (fun _ ↦ rfl)
  | .relationalExpr op l r, ⟨hl, hr⟩ =>
    scans_binary (isBinary_of_context (binaryContext_relational op)) hl.scans hr.scans
      (step_binary (binaryContext_relational op)) (fun _ ↦ rfl) (size_binary _ l r)
      (Nat.add_assoc l.ops 1 r.ops) (fun _ ↦ rfl)
  | .equalityExpr op l r, ⟨hl, hr⟩ =>
    scans_binary (isBinary_of_context (binaryContext_equality op)) hl.scans hr.scans
      (step_binary (binaryContext_equality op)) (fun _ ↦ rfl) (size_binary _ l r)
      (Nat.add_assoc l.ops 1 r.ops) (fun _ ↦ rfl)
  | .nonShortCircuiting op l r, ⟨hl, hr⟩ =>
    scans_binary (isBinary_of_context (binaryContext_nonShortCircuiting op)) hl.scans hr.scans
      (step_binary (binaryContext_nonShortCircuiting op)) (fun _ ↦ rfl) (size_binary _ l r)
      (Nat.add_assoc l.ops 1 r.ops) (fun _ ↦ rfl)
  | .boolOps op l r, ⟨hl, hr⟩ =>
    scans_binary (isBinary_of_context (binaryContext_boolOps op)) hl.scans hr.scans
      (step_binary (binaryContext_boolOps op)) (fun _ ↦ rfl) (size_binary _ l r)
      (Nat.add_assoc l.ops 1 r.ops) (fun _ ↦ rfl)
  | .arrayOfExpr l r, ⟨hl, hr⟩ => by
    refine scans_bracketed (l.shape.size + r.shape.size) (l.tokens ++ .kOf :: r.tokens) .rbracket
      (.inl rfl) (by simp [ExprContext.tokens]) (fun s rest hs ↦ ?_) (fun _ ↦ rfl) rfl rfl (fun _ ↦ rfl)
    have hof : ((s.push .bracket 1).after l false).step .kOf =
      some (((s.push .bracket 1).after l false).count .start 0 0) := rfl
    rw [← Nat.add_assoc]
    refine scan_bracket (.inr (.inl rfl)) (.inr rfl) ?_
    rw [List.append_assoc, hl.scans _ false _ rfl nofun, List.cons_append, scan_cons, hof,
      Option.bind_some, hr.scans _ false _ rfl nofun, ← check_and]
    simp only [after, count, push, Bool.toNat_false, Nat.add_zero, Nat.zero_add, Int.add_assoc]
    rfl
  | .ternaryExpr c e f, ⟨hc, he, hf⟩ => by
    refine scans_left (1 + (e.shape.size + f.shape.size)) hc.scans (List.append_assoc _ _ _)
      (fun s rest hs ↦ ?_) (fun _ ↦ rfl) ?_ (Nat.add_assoc c.ops e.ops f.ops)
      (fun b ↦ Int.add_assoc (c.value b) _ _) rfl
    · have hstep : s.step .question = some (s.count .start 1 0) := by simp only [step, hs]
      have hcolon : ((s.count .start 1 0).after e false).step .colon =
        some (((s.count .start 1 0).after e false).count .start 0 0) := rfl
      rw [List.cons_append, List.cons_append, scan_cons, hstep, Option.bind_some, List.append_assoc,
        he.scans _ false _ rfl nofun, List.cons_append, scan_cons, hcolon, Option.bind_some,
        hf.scans _ false _ rfl nofun, ← check_and]
      simp only [after, count, Bool.toNat_false, Nat.add_zero, Nat.add_assoc, Int.add_assoc]
    · simp only [ExprContext.shape, Shape.size, Shape.sizeList]
      omega
  | .recordRule fs, hfs => by
    refine scans_bracketed _ _ _ (.inr rfl) rfl (fun s rest hs ↦ ?_) (fun _ ↦ rfl) rfl rfl (fun _ ↦ rfl)
    exact scan_record (negsOkFields_scans hfs)
  | .arrayLiteral es, hes => by
    refine scans_bracketed _ _ _ (.inl rfl) rfl (fun s rest hs ↦ ?_) (fun _ ↦ rfl) rfl rfl (fun _ ↦ rfl)
    exact scan_brackets (.inr (.inl rfl)) (negsOkList_scans hes)
  | .negNumber x, _ => by
    intro s b rest hs _
    rw [ExprContext.tokens, List.cons_append, scan_cons, ExprContext.grouped]
    cases b with
    | true =>
      have hstep : s.step .sub = none := by simp only [step, hs, startMode, if_true]
      rw [hstep]
      rfl
    | false =>
      have hstep : s.step .sub = some (s.count .minus 0 0) := by simp only [step, hs, startMode]; rfl
      have hx : (s.count .minus 0 0).step (.number x) = some ((s.count .minus 0 0).count .ended 1 0) :=
        rfl
      rw [hstep, Option.bind_some, List.singleton_append, scan_cons, hx, Option.bind_some]
      have h : (s.count .minus 0 0).count .ended 1 0 = s.after (.negNumber x) false := by
        simp only [after, count, ExprContext.shape, Shape.size, Shape.sizeList, ExprContext.ops,
          ExprContext.value, Bool.toNat_false, Nat.add_zero, Int.add_zero, Nat.zero_add]
      rw [h]
      rfl
  | .varExpr x, _ =>
    scans_leaf rfl (fun s hs ↦ by simp only [step, hs]) (fun s hs _ ↦ by simp only [step, hs])
      (fun _ ↦ rfl) rfl rfl (fun _ ↦ rfl)
  | .numExpr x, _ =>
    scans_leaf rfl (fun s hs ↦ by simp only [step, hs]) (fun s hs h ↦ absurd trivial h)
      (fun _ ↦ rfl) rfl rfl (fun _ ↦ rfl)
  | .inputExpr, _ =>
    scans_leaf rfl (fun s hs ↦ by simp only [step, hs]) (fun s hs _ ↦ by simp only [step, hs])
      (fun _ ↦ rfl) rfl rfl (fun _ ↦ rfl)
  | .nullExpr, _ =>
    scans_leaf rfl (fun s hs ↦ by simp only [step, hs]) (fun s hs _ ↦ by simp only [step, hs])
      (fun _ ↦ rfl) rfl rfl (fun _ ↦ rfl)
  | .boolExpr ⟨op, hop⟩, _ => by
    have h : op = .kTrue ∨ op = .kFalse := by simpa using hop
    rcases h with rfl | rfl <;>
      exact scans_leaf rfl (fun s hs ↦ by simp only [step, hs])
        (fun s hs _ ↦ by simp only [step, hs]) (fun _ ↦ rfl) rfl rfl (fun _ ↦ rfl)

theorem negsOkList_scans : ∀ {es : List ExprContext}, ExprContext.NegsOkList es →
    ∀ e ∈ es, Scans e
  | [], _ => nofun
  | _ :: _, ⟨he, hes⟩ => List.forall_mem_cons.2 ⟨he.scans, negsOkList_scans hes⟩

theorem negsOkFields_scans : ∀ {fs : List FieldExprContext}, ExprContext.NegsOkFields fs →
    ∀ f ∈ fs, ∀ x e, f = .mk x e → Scans e
  | [], _ => nofun
  | .mk _ _ :: _, ⟨he, hfs⟩ =>
    List.forall_mem_cons.2 ⟨fun _ _ heq ↦ by cases heq; exact he.scans, negsOkFields_scans hfs⟩

end

/-- Trees with the same tokens have the same groups. -/
theorem grouped_of_tokens_eq {t u : ExprContext} (ht : t.NegsOk) (hu : u.NegsOk)
    (h : t.tokens = u.tokens) (hg : u.grouped false) : t.grouped false ∧
      t.shape.size = u.shape.size ∧ t.ops = u.ops ∧ t.value false = u.value false := by
  have hscan : ∀ {e : ExprContext}, e.NegsOk → scan ⟨.start, 0, 0, 0, []⟩ e.tokens =
      check (e.grouped false) (some (after ⟨.start, 0, 0, 0, []⟩ e false)) := by
    intro e he
    have hs := he.scans ⟨.start, 0, 0, 0, []⟩ false [] rfl nofun
    rwa [List.append_nil] at hs
  have heq := hscan ht
  rw [h, hscan hu, hg] at heq
  cases htg : t.grouped false with
  | false =>
    rw [htg] at heq
    cases heq
  | true =>
    rw [htg] at heq
    have hafter := Option.some.inj heq
    simp only [after, ScanState.mk.injEq, Nat.zero_add, Bool.toNat_false, Int.zero_add] at hafter
    exact ⟨rfl, hafter.2.1.symm, hafter.2.2.1.symm, hafter.2.2.2.1.symm⟩

end Sipc
