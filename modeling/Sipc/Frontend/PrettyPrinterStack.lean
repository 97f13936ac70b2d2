import Mathlib.Data.List.Induction
import Sipc.Frontend.PrettyPrinter
import Sipc.Frontend.SyntaxTree

/-!
# The stack of the pretty printer

`joinWithDelim` counts in `int` what `std::vector` counts in `size_t`. In `PrettyPrinter.Machine` the
methods of the printer compute with both, and what leaves their ranges is wrapped or undefined. Every
subtree pushes one string and every call joins the last strings exactly when fewer than `2 ^ 31` strings
are on the stack at each call, and the arrays and the indentation are in range
(`ASTProgram.stackDiscipline_iff`).
-/

set_option autoImplicit false
set_option relaxedAutoImplicit false

namespace Sipc.PrettyPrinter.Machine

/-! ### Joining with machine integers -/

/-- The `int` with the same low 32 bits. -/
def toInt (n : ℤ) : ℤ :=
  n.bmod (2 ^ 32)

/-- The `size_t` with the same low 64 bits. -/
def toSize (n : ℤ) : ℕ :=
  (n % 2 ^ 64).toNat

theorem toInt_of_lt {n : ℤ} (hn : 0 ≤ n) (hlt : n < 2 ^ 31) : toInt n = n :=
  Int.bmod_eq_of_le (by omega) (by omega)

theorem toInt_lt (n : ℤ) : toInt n < 2 ^ 31 := by
  have h : toInt n < ((2 ^ 32 : ℕ) + 1) / 2 := Int.bmod_lt (by omega)
  omega

theorem toSize_of_lt {n : ℤ} (hn : 0 ≤ n) (hlt : n < 2 ^ 64) : toSize n = n.toNat := by
  rw [toSize, Int.emod_eq_of_lt hn hlt]

theorem toSize_sub {m n : ℕ} (hle : n ≤ m) (hlt : m < 2 ^ 31) : toSize (m - n) = m - n := by
  rw [toSize_of_lt (by omega) (by omega)]
  omega

theorem toInt_natCast {n : ℕ} (hlt : n < 2 ^ 31) : toInt n = n :=
  toInt_of_lt (by omega) (by omega)

/-- The loop of `joinWithDelim`: the items from `i` on, each with `after` behind it. Reading past the
end and overflow of `i` are undefined. -/
def joinLoop (items : List String) (after : String) (bound : ℕ) (i : ℤ) (out : String) :
    Option (ℤ × String) :=
  if toSize i < bound then
    match items[toSize i]? with
    | none => none
    | some item =>
      if i + 1 < 2 ^ 31 then joinLoop items after bound (i + 1) (out ++ item ++ after) else none
  else some (i, out)
termination_by (2 ^ 31 - i).toNat

/-- `joinWithDelim`, the second loop without the delimiter. -/
def joinWithDelim (visitResults : List String) (delim : String) (size : ℕ) (skip : ℕ) :
    Option (String × List String) := do
  let sz := toInt size
  let items := visitResults.reverse
  let (i, out) ← joinLoop items delim (toSize (visitResults.length - skip))
    (toInt (toSize (visitResults.length - sz))) ""
  let (_, out) ← joinLoop items "" visitResults.length i out
  if 0 ≤ sz ∧ sz ≤ visitResults.length then some (out, visitResults.drop sz.toNat) else none

theorem joinLoop_of_le {items : List String} {after : String} {bound : ℕ} {i : ℤ} {out : String}
    (h : bound ≤ toSize i) : joinLoop items after bound i out = some (i, out) := by
  rw [joinLoop, if_neg (Nat.not_lt.2 h)]

/-- A loop that ends has reached its bound without overflow. -/
theorem bound_le_of_joinLoop {items : List String} {after : String} {bound : ℕ} (i : ℤ)
    (out : String) {j : ℤ} {out' : String} (h : joinLoop items after bound i out = some (j, out'))
    (hi : 0 ≤ i) (hlt : i < 2 ^ 31) : 0 ≤ j ∧ j < 2 ^ 31 ∧ bound ≤ j := by
  induction i, out using joinLoop.induct items after bound with
  | case1 i out hbound hnone =>
    rw [joinLoop, if_pos hbound, hnone] at h
    cases h
  | case2 i out hbound item hitem hnext ih =>
    rw [joinLoop, if_pos hbound, hitem] at h
    dsimp only at h
    rw [if_pos hnext] at h
    exact ih h (by omega) hnext
  | case3 i out hbound item hitem hnext =>
    rw [joinLoop, if_pos hbound, hitem] at h
    dsimp only at h
    rw [if_neg hnext] at h
    cases h
  | case4 i out hbound =>
    rw [joinLoop, if_neg hbound] at h
    cases h
    rw [toSize_of_lt hi (by omega)] at hbound
    exact ⟨hi, hlt, by omega⟩

/-- Where nothing overflows, the loop appends the items up to its bound. -/
theorem joinLoop_eq (after : String) (rest : List String) (mid : List String) :
    ∀ (done : List String) (out : String), done.length + mid.length < 2 ^ 31 →
      joinLoop (done ++ mid ++ rest) after (done.length + mid.length) done.length out =
        some (((done.length + mid.length : ℕ) : ℤ), out ++ joinItems after mid.length mid) := by
  induction mid with
  | nil =>
    intro done out hlt
    have hsize : toSize done.length = done.length := by
      rw [toSize_of_lt (by omega) (by rw [List.length_nil] at hlt; omega), Int.toNat_natCast]
    rw [joinLoop_of_le (by rw [hsize]; exact Nat.le_refl _), joinItems, String.append_empty]
    rfl
  | cons item mid ih =>
    intro done out hlt
    rw [List.length_cons] at hlt
    have hsize : toSize done.length = done.length := by
      rw [toSize_of_lt (by omega) (by omega), Int.toNat_natCast]
    have hitem : (done ++ item :: mid ++ rest)[done.length]? = some item := by
      rw [List.append_assoc, List.getElem?_append_right (Nat.le_refl _), Nat.sub_self]
      rfl
    have hnext := ih (done ++ [item]) (out ++ item ++ after)
      (by rw [List.length_append, List.length_singleton]; omega)
    rw [List.length_append, List.length_singleton, List.append_assoc done,
      List.singleton_append] at hnext
    rw [joinLoop, hsize, if_pos (by rw [List.length_cons]; omega), hitem]
    dsimp only
    rw [if_pos (by omega), List.length_cons, joinItems]
    have hlen : done.length + (mid.length + 1) = done.length + 1 + mid.length := by omega
    rw [hlen]
    push_cast at hnext ⊢
    rw [hnext]
    simp only [String.append_assoc, Int.add_assoc, Int.add_comm 1]

/-- Items without the delimiter behind them are those with an empty one. -/
theorem joinItems_zero (delim : String) (items : List String) :
    joinItems delim 0 items = joinItems "" items.length items := by
  induction items with
  | nil => rfl
  | cons item items ih => rw [joinItems, ih, List.length_cons, joinItems, String.append_empty]

theorem joinItems_take_drop (delim : String) (items : List String) :
    ∀ n ≤ items.length, joinItems delim n items =
      joinItems delim (items.take n).length (items.take n) ++
        joinItems "" (items.drop n).length (items.drop n) := by
  induction items with
  | nil =>
    intro n hn
    cases n with
    | zero => rfl
    | succ n => cases hn
  | cons item items ih =>
    intro n hn
    cases n with
    | zero => rw [List.take_zero, List.drop_zero, joinItems_zero, List.length_nil, joinItems,
        String.empty_append]
    | succ n =>
      rw [joinItems, ih n (Nat.le_of_succ_le_succ hn), List.take_succ_cons, List.drop_succ_cons,
        List.length_cons, joinItems]
      simp only [String.append_assoc]

/-- The call joins exactly the last `sz` strings in order and removes them. Neither the first index
nor the bound of the first loop wraps around. -/
structure JoinsLast (visitResults : List String) (delim : String) (sz skip : ℕ) : Prop where
  first_index : toInt (toSize (visitResults.length - toInt sz)) = visitResults.length - sz
  bound : (toSize (visitResults.length - skip) : ℤ) = visitResults.length - skip
  joined : joinWithDelim visitResults delim sz skip =
    some (joinItems delim (sz - skip) (visitResults.take sz).reverse, visitResults.drop sz)
  size_le : sz ≤ visitResults.length

/-- The loops end, so the index has gone up to the size of the stack in the range of `int`. -/
theorem JoinsLast.length_lt {visitResults : List String} {delim : String} {sz skip : ℕ}
    (h : JoinsLast visitResults delim sz skip) : visitResults.length < 2 ^ 31 := by
  have hfirst := h.first_index
  have hsize := h.size_le
  have hlt := toInt_lt (toSize (visitResults.length - toInt sz))
  have hjoined := h.joined
  rw [joinWithDelim, hfirst] at hjoined
  obtain ⟨⟨i, out⟩, hloop, hjoined⟩ := Option.bind_eq_some_iff.1 hjoined
  obtain ⟨⟨j, out'⟩, hloop', -⟩ := Option.bind_eq_some_iff.1 hjoined
  obtain ⟨hi, hilt, -⟩ := bound_le_of_joinLoop _ _ hloop (by omega) (by omega)
  obtain ⟨-, hjlt, hbound⟩ := bound_le_of_joinLoop _ _ hloop' hi hilt
  omega

section

variable {items l : List String} {skip : ℕ}

/-- The first loop ends where the delimiters end, or before it starts. -/
theorem joinLoop_first (delim : String) (hskip : skip ≤ items.length + l.length)
    (hlt : items.length + l.length < 2 ^ 31) :
    joinLoop (items.reverse ++ l).reverse delim (items.length + l.length - skip) l.length "" =
      some (((l.reverse ++ items.take (items.length - skip)).length : ℤ),
        joinItems delim (items.take (items.length - skip)).length
          (items.take (items.length - skip))) := by
  by_cases hle : skip ≤ items.length
  · have htake : (items.take (items.length - skip)).length = items.length - skip := by
      rw [List.length_take]
      omega
    have hloop := joinLoop_eq delim (items.drop (items.length - skip))
      (items.take (items.length - skip)) l.reverse "" (by rw [List.length_reverse, htake]; omega)
    rw [List.length_reverse, String.empty_append, List.append_assoc, List.take_append_drop, htake]
      at hloop
    rw [List.reverse_append, List.reverse_reverse, List.length_append, List.length_reverse, htake,
      show items.length + l.length - skip = l.length + (items.length - skip) by omega, hloop]
  · have hzero : items.length - skip = 0 := by omega
    rw [joinLoop_of_le (by rw [toSize_of_lt (by omega) (by omega)]; omega), hzero]
    simp [joinItems]

/-- The second loop appends what is left. -/
theorem joinLoop_second (delim : String) (hlt : items.length + l.length < 2 ^ 31) :
    joinLoop (items.reverse ++ l).reverse "" (items.length + l.length)
        (l.reverse ++ items.take (items.length - skip)).length
        (joinItems delim (items.take (items.length - skip)).length
          (items.take (items.length - skip))) =
      some (((items.length + l.length : ℕ) : ℤ), joinItems delim (items.length - skip) items) := by
  have hlength : (l.reverse ++ items.take (items.length - skip)).length +
      (items.drop (items.length - skip)).length = items.length + l.length := by
    rw [← List.length_append, List.append_assoc, List.take_append_drop, List.length_append,
      List.length_reverse, Nat.add_comm]
  have hloop := joinLoop_eq "" [] (items.drop (items.length - skip))
    (l.reverse ++ items.take (items.length - skip))
    (joinItems delim (items.take (items.length - skip)).length (items.take (items.length - skip)))
    (by rw [hlength]; exact hlt)
  rw [List.append_nil, List.append_assoc, List.take_append_drop, hlength,
    ← joinItems_take_drop delim items _ (Nat.sub_le _ _)] at hloop
  rw [List.reverse_append, List.reverse_reverse]
  exact hloop

end

theorem joinWithDelim_reverse {items l : List String} {sz skip : ℕ} (delim : String)
    (hsz : items.length = sz) (hskip : skip ≤ items.length + l.length)
    (hlt : items.length + l.length < 2 ^ 31) : joinWithDelim (items.reverse ++ l) delim sz skip =
      some (joinItems delim (sz - skip) items, l) := by
  subst hsz
  have hint : toInt items.length = items.length :=
    toInt_natCast (Nat.lt_of_le_of_lt (Nat.le_add_right _ _) hlt)
  have hrest : toInt l.length = l.length :=
    toInt_natCast (Nat.lt_of_le_of_lt (Nat.le_add_left _ _) hlt)
  have hle : (items.length : ℤ) ≤ (items.length + l.length : ℕ) := by omega
  rw [joinWithDelim]
  simp only [List.length_append, List.length_reverse]
  rw [hint, toSize_sub hskip hlt, toSize_sub (Nat.le_add_right _ _) hlt, Nat.add_sub_cancel_left,
    hrest, joinLoop_first delim hskip hlt]
  simp only [Option.bind_eq_bind, Option.bind_some, joinLoop_second delim hlt]
  rw [if_pos ⟨Int.natCast_nonneg _, hle⟩, Int.toNat_natCast, List.drop_left' (List.length_reverse)]

/-- A call joins the last strings exactly if they are there and the stack is not too long. -/
theorem joinsLast_iff {visitResults : List String} {delim : String} {sz skip : ℕ} :
    JoinsLast visitResults delim sz skip ↔
      sz ≤ visitResults.length ∧ skip ≤ visitResults.length ∧ visitResults.length < 2 ^ 31 := by
  constructor
  · intro h
    have hbound := h.bound
    exact ⟨h.size_le, by omega, h.length_lt⟩
  · rintro ⟨hsz, hskip, hlt⟩
    have hitems : ((visitResults.take sz).reverse).length = sz := by
      rw [List.length_reverse, List.length_take, Nat.min_eq_left hsz]
    have hlength : (visitResults.take sz).reverse.length + (visitResults.drop sz).length =
        visitResults.length := by
      rw [hitems, List.length_drop, Nat.add_sub_cancel' hsz]
    have hjoined := joinWithDelim_reverse delim hitems (hlength.symm ▸ hskip) (hlength.symm ▸ hlt)
    rw [List.reverse_reverse, List.take_append_drop] at hjoined
    refine ⟨?_, ?_, hjoined, hsz⟩
    · rw [toInt_natCast (Nat.lt_of_le_of_lt hsz hlt), toSize_sub hsz hlt, toInt_natCast (by omega),
        Nat.cast_sub hsz]
    · rw [toSize_sub hskip hlt, Nat.cast_sub hskip]

/-- Such a call is the call on natural numbers. -/
theorem JoinsLast.eq_joinWithDelim {visitResults : List String} {delim : String} {sz skip : ℕ}
    (h : JoinsLast visitResults delim sz skip) :
    joinWithDelim visitResults delim sz skip = Sipc.joinWithDelim visitResults delim sz skip := by
  obtain ⟨hsz, hskip, -⟩ := joinsLast_iff.1 h
  rw [h.joined, Sipc.joinWithDelim, if_neg (by omega)]

/-! ### The visitor -/

variable (indentChar : Char) (indentSize : Int32)

/-- `indent`. The product is an `int`, and a string is not that long if it is negative. -/
def indent (indentLevel : ℕ) : Option String :=
  if 0 ≤ indentLevel * indentSize.toInt ∧ indentLevel * indentSize.toInt < 2 ^ 31 then
    some (String.ofList (List.replicate (indentLevel * indentSize.toInt).toNat indentChar))
  else none

/-- The `endVisit` methods, at the indentation after it was decreased. Those that count neither
strings nor blanks are the same on machine integers. -/
def endVisit (indentLevel : ℕ) (ss : List String) : ASTNode → Option (List String)
  | .expr (.funAppExpr _ _ actuals) => do
    let (actualsString, ss) ← joinWithDelim ss ", " actuals.length 1
    match ss with
    | [] => none
    | function :: ss => some ((function ++ "(" ++ actualsString ++ ")") :: ss)
  | .expr (.arrayExpr _ elements) =>
    let size := (toInt elements.length).toNat
    if ss.length < size then none
    else some (("[" ++ joinItems ", " (size - 1) (ss.take size).reverse ++ "]") :: ss.drop size)
  | .expr (.recordExpr _ fields) => do
    let (fieldsString, ss) ← joinWithDelim ss ", " fields.length 1
    return ("\x7b" ++ fieldsString ++ "\x7d") :: ss
  | .expr e => e.endVisit ss
  | .fieldExpr f => f.endVisit ss
  | .declNode d => some (d.endVisit ss)
  | .declStmt s => do
    let indentString ← indent indentChar indentSize indentLevel
    let (vars, ss) ← joinWithDelim ss ", " s.vars.length 1
    return (indentString ++ "var " ++ vars ++ ";") :: ss
  | .stmt (.blockStmt _ stmts) => do
    let indentString ← indent indentChar indentSize indentLevel
    let (stmtsString, ss) ← joinWithDelim ss "\n" stmts.length 0
    return (indentString ++ "\x7b\n" ++ stmtsString ++ indentString ++ "\x7d") :: ss
  | .stmt s => do
    let indentString ← indent indentChar indentSize indentLevel
    s.endVisit indentString ss
  | .returnStmt _ => do
    let indentString ← indent indentChar indentSize indentLevel
    ASTReturnStmt.endVisit indentString ss
  | .function f => do
    let (bodyString, ss) ← joinWithDelim ss "\n" (f.body.length + 1) 0
    let (declString, ss) ← joinWithDelim ss "\n" f.declarations.length 0
    let (formalsString, ss) ← joinWithDelim ss ", " f.formals.length 1
    let polyString := if f.isPoly then "poly" else ""
    match ss with
    | [] => none
    | name :: ss =>
      some ((name ++ ("(" ++ formalsString ++ ") " ++ polyString ++ "\n\x7b\n" ++ declString ++
        bodyString ++ "\x7d\n")) :: ss)

/-- One call. `indentLevel++` overflows at the largest `int`. -/
def step (p : PrettyPrinter) : VisitEvent → Option PrettyPrinter
  | .visit n =>
    if n.indents ∧ ¬ p.indentLevel + 1 < 2 ^ 31 then none
    else some ⟨p.visitResults, p.indentLevel + n.indents.toNat⟩
  | .endVisit n => do
    let visitResults ←
      endVisit indentChar indentSize (p.indentLevel - n.indents.toNat) p.visitResults n
    return ⟨visitResults, p.indentLevel - n.indents.toNat⟩

/-- The calls of a traversal. -/
def visitAll (p : PrettyPrinter) (events : List VisitEvent) : Option PrettyPrinter :=
  events.foldlM (step indentChar indentSize) p

/-- `PrettyPrinter::print`: the traversal, and `endVisit` of the program. -/
def print (program : ASTProgram) : Option String := do
  let p ← visitAll indentChar indentSize ⟨[], 0⟩ program.accept
  let (text, _) ← joinWithDelim p.visitResults "\n" program.functions.length 1
  return text

/-- A call of `joinWithDelim`. -/
structure JoinCall where
  visitResults : List String
  delim : String
  sz : ℕ
  skip : ℕ

/-- The calls of `joinWithDelim` that `endVisit` makes, each on what the calls before it leave. -/
def joinCalls (ss : List String) : ASTNode → List JoinCall
  | .expr (.funAppExpr _ _ actuals) => [⟨ss, ", ", actuals.length, 1⟩]
  | .expr (.recordExpr _ fields) => [⟨ss, ", ", fields.length, 1⟩]
  | .declStmt s => [⟨ss, ", ", s.vars.length, 1⟩]
  | .stmt (.blockStmt _ stmts) => [⟨ss, "\n", stmts.length, 0⟩]
  | .function f =>
    [⟨ss, "\n", f.body.length + 1, 0⟩,
      ⟨ss.drop (f.body.length + 1), "\n", f.declarations.length, 0⟩,
      ⟨(ss.drop (f.body.length + 1)).drop f.declarations.length, ", ", f.formals.length, 1⟩]
  | _ => []

/-- Behind the calls `events`, the calls for the node push one string and leave the indentation as it
was, and its calls of `joinWithDelim` join the last strings. -/
structure Disciplined (events : List VisitEvent) (n : ASTNode) : Prop where
  pushes : ∃ p text, visitAll indentChar indentSize ⟨[], 0⟩ events = some p ∧
    visitAll indentChar indentSize p n.accept = some ⟨text :: p.visitResults, p.indentLevel⟩
  joins : ∃ p, visitAll indentChar indentSize ⟨[], 0⟩
      (events ++ .visit n :: n.getChildren.flatMap ASTNode.accept) = some p ∧
    ∀ call ∈ joinCalls p.visitResults n,
      JoinsLast call.visitResults call.delim call.sz call.skip

end Sipc.PrettyPrinter.Machine

namespace Sipc

open PrettyPrinter

/-- The stack discipline of the printer, for every subtree wherever its calls are in the traversal, and
for the program. There is no state where a method has popped from an empty stack. -/
structure ASTProgram.StackDiscipline (program : ASTProgram) (indentChar : Char)
    (indentSize : Int32) : Prop where
  subtrees : ∀ events n rest, program.accept = events ++ n.accept ++ rest →
    Machine.Disciplined indentChar indentSize events n
  program : ∃ p, Machine.visitAll indentChar indentSize ⟨[], 0⟩ program.accept = some p ∧
    Machine.JoinsLast p.visitResults "\n" program.functions.length 1

/-! ### Where a node occurs -/

/-- The node occurs behind the calls `events`. The functions before it, and the nodes before it and
before each of its parents among the children, are `waiting` subtrees; `level` of its parents indent. -/
inductive ASTProgram.Occurs (program : ASTProgram) : List VisitEvent → ℕ → ℕ → ASTNode → Prop
  | function {fs fs' : List ASTFunction} {f : ASTFunction}
    (h : program.functions = fs ++ f :: fs') :
    Occurs program (fs.flatMap ASTFunction.accept) fs.length 0 (.function f)
  | child {events : List VisitEvent} {waiting level : ℕ} {n c : ASTNode} {cs cs' : List ASTNode}
    (h : Occurs program events waiting level n) (hc : n.getChildren = cs ++ c :: cs') :
    Occurs program (events ++ .visit n :: cs.flatMap ASTNode.accept) (waiting + cs.length)
      (level + n.indents.toNat) c

namespace ASTProgram.Occurs

variable {program : ASTProgram} {events : List VisitEvent} {waiting level : ℕ} {n : ASTNode}

theorem exists_rest (h : program.Occurs events waiting level n) :
    ∃ rest, program.accept = events ++ n.accept ++ rest := by
  induction h with
  | @function fs fs' f h =>
    refine ⟨fs'.flatMap ASTFunction.accept, ?_⟩
    rw [ASTProgram.accept, h, List.flatMap_append, List.flatMap_cons, List.append_assoc]
    rfl
  | @child events waiting level n c cs cs' h hc ih =>
    obtain ⟨rest, hrest⟩ := ih
    refine ⟨cs'.flatMap ASTNode.accept ++ .endVisit n :: rest, ?_⟩
    rw [hrest, n.accept_eq, hc, visiting, List.flatMap_append, List.flatMap_cons]
    simp only [List.append_assoc, List.cons_append, List.nil_append]

/-- A node below one that occurs, occurs. -/
theorem exists_of_mem {m : ASTNode} : ∀ {events : List VisitEvent} {waiting level : ℕ},
    program.Occurs events waiting level m → .visit n ∈ m.accept →
      ∃ events waiting level, program.Occurs events waiting level n := by
  refine ASTNode.induction_children (P := fun m ↦ ∀ {events waiting level},
    program.Occurs events waiting level m → .visit n ∈ m.accept →
      ∃ events waiting level, program.Occurs events waiting level n) (fun m ih events waiting level h hn ↦ ?_) m
  have hmem := mem_visits.2 hn
  rw [m.accept_eq, visits_visiting, visits_flatMap] at hmem
  rcases List.mem_cons.1 hmem with rfl | hmem
  · exact ⟨events, waiting, level, h⟩
  · obtain ⟨c, hc, hnc⟩ := List.mem_flatMap.1 hmem
    obtain ⟨cs, cs', hcs⟩ := List.append_of_mem hc
    exact ih c hc (h.child hcs) (mem_visits.1 hnc)

end ASTProgram.Occurs

theorem not_mem_of_nodup_visitedNodes {a b : List VisitEvent} {n : ASTNode}
    (h : (visitedNodes (a ++ .visit n :: b)).Nodup) : .visit n ∉ a ∧ .visit n ∉ b := by
  have happend : visitedNodes (a ++ .visit n :: b) =
      visitedNodes a ++ n.node :: visitedNodes b := List.filterMap_append
  rw [happend] at h
  obtain ⟨-, hb, hdisjoint⟩ := List.nodup_append.1 h
  exact ⟨fun ha ↦ hdisjoint _ (mem_visitedNodes ha) _ List.mem_cons_self rfl,
    fun hmem ↦ (List.nodup_cons.1 hb).1 (mem_visitedNodes hmem)⟩

/-- No node is visited twice. -/
theorem append_visit_inj {a a' b b' : List VisitEvent} {n : ASTNode}
    (hnodup : (visitedNodes (a ++ .visit n :: b)).Nodup)
    (h : a ++ .visit n :: b = a' ++ .visit n :: b') : a = a' := by
  obtain ⟨ha, hb⟩ := not_mem_of_nodup_visitedNodes hnodup
  rcases List.append_eq_append_iff.1 h with ⟨c, rfl, hc⟩ | ⟨c, rfl, hc⟩
  · cases c with
    | nil => exact (List.append_nil a).symm
    | cons ev c =>
      obtain ⟨-, rfl⟩ := List.cons.inj hc
      exact absurd (List.mem_append_right _ List.mem_cons_self) hb
  · cases c with
    | nil => exact List.append_nil a'
    | cons ev c =>
      obtain ⟨rfl, -⟩ := List.cons.inj hc
      exact absurd (List.mem_append_right _ List.mem_cons_self) ha

/-- A subtree whose calls are in the traversal occurs there. -/
theorem ASTProgram.exists_occurs {program : ASTProgram} {events rest : List VisitEvent} {n : ASTNode}
    (h : program.accept = events ++ n.accept ++ rest) :
    ∃ waiting level, program.Occurs events waiting level n := by
  have hvisit : ∀ rest, n.accept ++ rest =
      .visit n :: (n.getChildren.flatMap ASTNode.accept ++ [.endVisit n] ++ rest) := fun rest ↦ by
    rw [n.accept_eq]
    rfl
  rw [List.append_assoc, hvisit] at h
  have hmem : VisitEvent.visit n ∈ program.accept := by
    rw [h]
    exact List.mem_append_right _ List.mem_cons_self
  obtain ⟨f, hf, hn⟩ := List.mem_flatMap.1 hmem
  obtain ⟨fs, fs', hfs⟩ := List.append_of_mem hf
  obtain ⟨events', waiting, level, hoccurs⟩ := (Occurs.function hfs).exists_of_mem hn
  obtain ⟨rest', hrest'⟩ := hoccurs.exists_rest
  rw [List.append_assoc, hvisit] at hrest'
  have hnodup := program.distinct
  change (visitedNodes program.accept).Nodup at hnodup
  obtain rfl := append_visit_inj (h ▸ hnodup) (h.symm.trans hrest')
  exact ⟨waiting, level, hoccurs⟩

/-- Before a node that is neither a function nor a declared name there is a subtree. -/
theorem ASTProgram.Occurs.waiting_pos {program : ASTProgram} {events : List VisitEvent}
    {waiting level : ℕ} {n : ASTNode} (h : program.Occurs events waiting level n)
    (hfunction : ∀ f, n ≠ .function f) (hdecl : ∀ d, n ≠ .declNode d) : 0 < waiting := by
  induction h with
  | @function fs fs' f h => exact absurd rfl (hfunction f)
  | @child events waiting level n c cs cs' h hc ih =>
    cases cs with
    | nil =>
      refine Nat.add_pos_left (ih (fun f hf ↦ ?_) fun d hd ↦ ?_) _
      · subst hf
        obtain ⟨rfl, -⟩ := List.cons.inj hc
        exact hdecl f.decl rfl
      · subst hd
        cases hc
    | cons c' cs => exact Nat.add_pos_right _ (Nat.succ_pos _)

/-! ### One method -/

namespace PrettyPrinter.Machine

/-- The nodes whose `endVisit` calls `joinWithDelim`. -/
def joins : ASTNode → Bool
  | .expr (.funAppExpr _ _ _) | .expr (.recordExpr _ _) | .declStmt _ | .stmt (.blockStmt _ _)
  | .function _ => true
  | _ => false

/-- The nodes whose `endVisit` calls `indent`. -/
def callsIndent : ASTNode → Bool
  | .declStmt _ | .stmt _ | .returnStmt _ => true
  | _ => false

/-- The array literals. -/
def isArray : ASTNode → Bool
  | .expr (.arrayExpr _ _) => true
  | _ => false

/-- At the node, no `int` of the printer leaves its range. -/
structure Fits (indentSize : Int32) (waiting level : ℕ) (n : ASTNode) : Prop where
  level_lt : n.indents = true → level + 1 < 2 ^ 31
  indent_lt : callsIndent n = true →
    0 ≤ level * indentSize.toInt ∧ level * indentSize.toInt < 2 ^ 31
  strings_lt : joins n = true → waiting + n.getChildren.length < 2 ^ 31
  elements_lt : isArray n = true → n.getChildren.length < 2 ^ 31

variable {indentChar : Char} {indentSize : Int32} {ts ss : List String} {level : ℕ} {n : ASTNode}

theorem exists_endVisit_expr {e : ASTExpr} (hlen : ts.length = e.getChildren.length)
    (hjoins : joins (.expr e) = false) (harray : isArray (.expr e) = false) :
    ∃ text, e.endVisit (ts ++ ss) = some (text :: ss) := by
  cases e with
  | numberExpr _ _ | boolExpr _ _ | inputExpr _ | nullExpr _ | variableExpr _ _ =>
    obtain rfl := List.length_eq_zero_iff.1 hlen
    exact ⟨_, rfl⟩
  | notExpr _ _ | negExpr _ _ | allocExpr _ _ | refExpr _ _ | deRefExpr _ _ | accessExpr _ _ _
  | arrayLenExpr _ _ =>
    obtain ⟨t, rfl⟩ := List.length_eq_one_iff.1 hlen
    exact ⟨_, rfl⟩
  | binaryExpr _ _ _ _ | arrayOfExpr _ _ _ | indexingExpr _ _ _ =>
    obtain ⟨t, t', rfl⟩ := List.length_eq_two.1 hlen
    exact ⟨_, rfl⟩
  | ternaryExpr _ _ _ _ =>
    obtain ⟨t, t', t'', rfl⟩ := List.length_eq_three.1 hlen
    exact ⟨_, rfl⟩
  | funAppExpr _ _ _ | recordExpr _ _ => cases hjoins
  | arrayExpr _ _ => cases harray

theorem exists_endVisit_stmt {s : ASTStmt} (indentString : String)
    (hlen : ts.length = s.getChildren.length) (hjoins : joins (.stmt s) = false) :
    ∃ text, s.endVisit indentString (ts ++ ss) = some (text :: ss) := by
  cases s with
  | updateStmt _ _ _ | outputStmt _ _ | errorStmt _ _ =>
    obtain ⟨t, rfl⟩ := List.length_eq_one_iff.1 hlen
    exact ⟨_, rfl⟩
  | assignStmt _ _ _ | whileStmt _ _ _ =>
    obtain ⟨t, t', rfl⟩ := List.length_eq_two.1 hlen
    exact ⟨_, rfl⟩
  | blockStmt _ _ => cases hjoins
  | ifStmt _ _ _ elseStmt =>
    cases elseStmt with
    | none =>
      obtain ⟨t, t', rfl⟩ := List.length_eq_two.1 hlen
      exact ⟨_, rfl⟩
    | some elseStmt =>
      obtain ⟨t, t', t'', rfl⟩ := List.length_eq_three.1 hlen
      exact ⟨_, rfl⟩
  | forStmt _ _ domain _ =>
    cases domain with
    | iterator _ =>
      obtain ⟨t, t', t'', rfl⟩ := List.length_eq_three.1 hlen
      exact ⟨_, rfl⟩
    | range _ _ increment =>
      obtain ⟨t, ts, rfl⟩ := List.exists_cons_of_length_eq_add_one hlen
      cases increment with
      | none =>
        obtain ⟨t₁, t₂, t₃, rfl⟩ := List.length_eq_three.1 (Nat.succ.inj hlen)
        exact ⟨_, rfl⟩
      | some increment =>
        obtain ⟨t', ts, rfl⟩ := List.exists_cons_of_length_eq_add_one (Nat.succ.inj hlen)
        obtain ⟨t₁, t₂, t₃, rfl⟩ := List.length_eq_three.1 (Nat.succ.inj (Nat.succ.inj hlen))
        exact ⟨_, rfl⟩

theorem endVisit_expr {e : ASTExpr} (hjoins : joins (.expr e) = false)
    (harray : isArray (.expr e) = false) (ss : List String) :
    endVisit indentChar indentSize level ss (.expr e) = e.endVisit ss := by
  cases e with
  | funAppExpr _ _ _ | recordExpr _ _ => cases hjoins
  | arrayExpr _ _ => cases harray
  | numberExpr _ _ | boolExpr _ _ | inputExpr _ | nullExpr _ | variableExpr _ _ | notExpr _ _
  | negExpr _ _ | allocExpr _ _ | refExpr _ _ | deRefExpr _ _ | accessExpr _ _ _
  | arrayLenExpr _ _ | binaryExpr _ _ _ _ | arrayOfExpr _ _ _ | indexingExpr _ _ _
  | ternaryExpr _ _ _ _ => rfl

/-- Statements that do not join pop the strings of their children at the indentation. -/
theorem endVisit_stmt {s : ASTStmt} (hjoins : joins (.stmt s) = false) (ss : List String) :
    endVisit indentChar indentSize level ss (.stmt s) =
      (indent indentChar indentSize level).bind (s.endVisit · ss) := by
  cases s with
  | blockStmt _ _ => cases hjoins
  | updateStmt _ _ _ | outputStmt _ _ | errorStmt _ _ | assignStmt _ _ _ | whileStmt _ _ _
  | ifStmt _ _ _ _ | forStmt _ _ _ _ => rfl

theorem joinCalls_eq_nil (hjoins : joins n = false) (ss : List String) : joinCalls ss n = [] := by
  cases n with
  | function f | declStmt s => cases hjoins
  | declNode d | fieldExpr f | returnStmt s => rfl
  | expr e =>
    cases e with
    | funAppExpr _ _ _ | recordExpr _ _ => cases hjoins
    | numberExpr _ _ | boolExpr _ _ | inputExpr _ | nullExpr _ | variableExpr _ _ | notExpr _ _
    | negExpr _ _ | allocExpr _ _ | refExpr _ _ | deRefExpr _ _ | accessExpr _ _ _
    | arrayLenExpr _ _ | binaryExpr _ _ _ _ | arrayOfExpr _ _ _ | indexingExpr _ _ _
    | ternaryExpr _ _ _ _ | arrayExpr _ _ => rfl
  | stmt s =>
    cases s with
    | blockStmt _ _ => cases hjoins
    | updateStmt _ _ _ | outputStmt _ _ | errorStmt _ _ | assignStmt _ _ _ | whileStmt _ _ _
    | ifStmt _ _ _ _ | forStmt _ _ _ _ => rfl

theorem exists_indent (h : 0 ≤ level * indentSize.toInt ∧ level * indentSize.toInt < 2 ^ 31) :
    ∃ indentString, indent indentChar indentSize level = some indentString :=
  ⟨_, if_pos h⟩

/-- The strings of the children are the last ones on the stack. -/
theorem joinsLast_children (delim : String) (skip : ℕ) {sz : ℕ} (hlen : ts.length = sz)
    (hskip : skip ≤ sz + ss.length) (hlt : ss.length + sz < 2 ^ 31) :
    JoinsLast (ts ++ ss) delim sz skip ∧ ∃ text, joinWithDelim (ts ++ ss) delim sz skip =
      some (text, ss) := by
  have hjoins : JoinsLast (ts ++ ss) delim sz skip := joinsLast_iff.2
    ⟨by rw [List.length_append]; omega, by rw [List.length_append]; omega,
      by rw [List.length_append]; omega⟩
  have hjoined := hjoins.joined
  rw [List.drop_left' hlen] at hjoined
  exact ⟨hjoins, _, hjoined⟩

/-- The strings of a function are those of its body, of its declarations and of its formals, and its
name. -/
theorem endVisit_function {f : ASTFunction} {bodies decls formals : List String} {name : String}
    (hbodies : bodies.length = f.body.length + 1) (hdecls : decls.length = f.declarations.length)
    (hformals : formals.length = f.formals.length)
    (hlt : ss.length + (ASTNode.function f).getChildren.length < 2 ^ 31) :
    (∃ text, endVisit indentChar indentSize level (bodies ++ (decls ++ (formals ++ name :: ss)))
      (.function f) = some (text :: ss)) ∧
      ∀ call ∈ joinCalls (bodies ++ (decls ++ (formals ++ name :: ss))) (.function f),
        JoinsLast call.visitResults call.delim call.sz call.skip := by
  have hchildren : (ASTNode.function f).getChildren.length =
      f.formals.length + f.declarations.length + f.body.length + 2 := by
    simp only [ASTNode.getChildren, List.length_cons, List.length_append, List.length_map,
      List.length_nil]
  rw [hchildren] at hlt
  have hbodyLt : (decls ++ (formals ++ name :: ss)).length + (f.body.length + 1) < 2 ^ 31 := by
    simp only [List.length_append, List.length_cons]
    omega
  have hdeclLt : (formals ++ name :: ss).length + f.declarations.length < 2 ^ 31 := by
    simp only [List.length_append, List.length_cons]
    omega
  have hformalLt : (name :: ss).length + f.formals.length < 2 ^ 31 := by
    rw [List.length_cons]
    omega
  have hskip : 1 ≤ f.formals.length + (name :: ss).length := by
    rw [List.length_cons]
    omega
  obtain ⟨hbody, bodyString, hbody'⟩ := joinsLast_children "\n" 0 hbodies (Nat.zero_le _) hbodyLt
  obtain ⟨hdecl, declString, hdecl'⟩ := joinsLast_children "\n" 0 hdecls (Nat.zero_le _) hdeclLt
  obtain ⟨hformal, formalsString, hformal'⟩ := joinsLast_children ", " 1 hformals hskip hformalLt
  constructor
  · have hend : endVisit indentChar indentSize level (bodies ++ (decls ++ (formals ++ name :: ss)))
        (.function f) = some ((name ++ ("(" ++ formalsString ++ ") " ++
          (if f.isPoly then "poly" else "") ++ "\n\x7b\n" ++ declString ++ bodyString ++
          "\x7d\n")) :: ss) := by
      rw [endVisit, hbody', Option.bind_eq_bind, Option.bind_some]
      dsimp only
      rw [hdecl', Option.bind_some]
      dsimp only
      rw [hformal', Option.bind_some]
    exact ⟨_, hend⟩
  · intro call hcall
    rw [joinCalls, List.drop_left' hbodies, List.drop_left' hdecls] at hcall
    simp only [List.mem_cons, List.not_mem_nil, or_false] at hcall
    rcases hcall with rfl | rfl | rfl
    · exact hbody
    · exact hdecl
    · exact hformal

/-- A list split at three places before its last element. -/
theorem exists_split_three {l : List String} {i j k : ℕ} (h : l.length = i + j + k + 1) :
    ∃ as bs cs last, l = as ++ (bs ++ (cs ++ [last])) ∧ as.length = i ∧ bs.length = j ∧
      cs.length = k := by
  obtain ⟨last, hlast⟩ := List.length_eq_one_iff.1
    (show (((l.drop i).drop j).drop k).length = 1 by simp only [List.length_drop]; omega)
  refine ⟨l.take i, (l.drop i).take j, ((l.drop i).drop j).take k, last, ?_, ?_, ?_, ?_⟩
  · rw [← hlast, List.take_append_drop, List.take_append_drop, List.take_append_drop]
  · rw [List.length_take]
    omega
  · rw [List.length_take, List.length_drop]
    omega
  · rw [List.length_take, List.length_drop, List.length_drop]
    omega

/-- A call pops the strings of the actuals and edits that of the function in place. -/
theorem endVisit_funApp {id : NodeId} {function : ASTExpr} {actuals : List ASTExpr}
    (hlen : ts.length = actuals.length + 1) (hlt : ss.length + (actuals.length + 1) < 2 ^ 31) :
    (∃ text, endVisit indentChar indentSize level (ts ++ ss)
      (.expr (.funAppExpr id function actuals)) = some (text :: ss)) ∧
      JoinsLast (ts ++ ss) ", " actuals.length 1 := by
  rcases List.eq_nil_or_concat' ts with rfl | ⟨strings, f, rfl⟩
  · cases hlen
  rw [List.length_append, List.length_singleton, Nat.add_right_cancel_iff] at hlen
  have hlt' : (f :: ss).length + actuals.length < 2 ^ 31 := by
    rw [List.length_cons]
    omega
  have hskip : 1 ≤ actuals.length + (f :: ss).length := by
    rw [List.length_cons]
    omega
  obtain ⟨hjoins, actualsString, hactuals⟩ := joinsLast_children ", " 1 hlen hskip hlt'
  rw [List.append_assoc, List.singleton_append]
  refine ⟨⟨f ++ "(" ++ actualsString ++ ")", ?_⟩, hjoins⟩
  rw [endVisit, hactuals, Option.bind_eq_bind, Option.bind_some]

theorem endVisit_array {id : NodeId} {elements : List ASTExpr} (hlen : ts.length = elements.length)
    (hlt : elements.length < 2 ^ 31) :
    ∃ text, endVisit indentChar indentSize level (ts ++ ss) (.expr (.arrayExpr id elements)) =
      some (text :: ss) := by
  rw [endVisit, toInt_natCast hlt, Int.toNat_natCast, if_neg (by rw [List.length_append]; omega),
    List.drop_left' hlen]
  exact ⟨_, rfl⟩

/-- Where nothing leaves its range, a method replaces the strings of the children with one, and its
calls of `joinWithDelim` join the last strings. -/
theorem Fits.exists_endVisit (hfits : Fits indentSize ss.length level n) (indentChar : Char)
    (hlen : ts.length = n.getChildren.length)
    (hpos : (∀ f, n ≠ .function f) → (∀ d, n ≠ .declNode d) → 0 < ss.length) :
    (∃ text, endVisit indentChar indentSize level (ts ++ ss) n = some (text :: ss)) ∧
      ∀ call ∈ joinCalls (ts ++ ss) n, JoinsLast call.visitResults call.delim call.sz call.skip := by
  cases n with
  | function f =>
    have hsplit : ts.length = f.body.length + 1 + f.declarations.length + f.formals.length + 1 := by
      rw [hlen]
      simp only [ASTNode.getChildren, List.length_cons, List.length_append, List.length_map,
        List.length_nil]
      omega
    obtain ⟨bodies, decls, formals, name, rfl, hbodies, hdecls, hformals⟩ :=
      exists_split_three hsplit
    simp only [List.append_assoc, List.singleton_append]
    exact endVisit_function hbodies hdecls hformals (hfits.strings_lt rfl)
  | declNode d =>
    obtain rfl := List.length_eq_zero_iff.1 hlen
    exact ⟨⟨_, rfl⟩, List.forall_mem_nil _⟩
  | declStmt s =>
    replace hpos : 0 < ss.length := hpos (by simp) (by simp)
    have hlt := hfits.strings_lt rfl
    rw [ASTNode.getChildren, List.length_map] at hlen hlt
    obtain ⟨indentString, hindent⟩ := exists_indent (hfits.indent_lt rfl)
    obtain ⟨hjoins, vars, hvars⟩ := joinsLast_children ", " 1 hlen (by omega) hlt
    refine ⟨⟨indentString ++ "var " ++ vars ++ ";", ?_⟩, List.forall_mem_singleton.2 hjoins⟩
    rw [endVisit, hindent, Option.bind_eq_bind, Option.bind_some, hvars]
    rfl
  | expr e =>
    replace hpos : 0 < ss.length := hpos (by simp) (by simp)
    cases hjoins : joins (.expr e) with
    | false =>
      rw [joinCalls_eq_nil hjoins]
      refine ⟨?_, List.forall_mem_nil _⟩
      cases harray : isArray (.expr e) with
      | false =>
        rw [endVisit_expr hjoins harray]
        exact exists_endVisit_expr hlen hjoins harray
      | true =>
        have hlt := hfits.elements_lt harray
        cases e with
        | arrayExpr id elements =>
          rw [ASTNode.getChildren, ASTExpr.getChildren, List.length_map] at hlen hlt
          exact endVisit_array hlen hlt
        | _ => cases harray
    | true =>
      have hlt := hfits.strings_lt hjoins
      cases e with
      | funAppExpr id function actuals =>
        rw [ASTNode.getChildren, ASTExpr.getChildren, List.length_cons, List.length_map]
          at hlen hlt
        obtain ⟨htext, hcall⟩ := endVisit_funApp hlen hlt
        exact ⟨htext, List.forall_mem_singleton.2 hcall⟩
      | recordExpr id fields =>
        rw [ASTNode.getChildren, ASTExpr.getChildren, List.length_map] at hlen hlt
        obtain ⟨hcall, fieldsString, hfields⟩ := joinsLast_children ", " 1 hlen (by omega) hlt
        refine ⟨⟨"\x7b" ++ fieldsString ++ "\x7d", ?_⟩, List.forall_mem_singleton.2 hcall⟩
        rw [endVisit, hfields]
        rfl
      | _ => cases hjoins
  | fieldExpr f =>
    obtain ⟨t, rfl⟩ := List.length_eq_one_iff.1 hlen
    exact ⟨⟨_, rfl⟩, List.forall_mem_nil _⟩
  | stmt s =>
    obtain ⟨indentString, hindent⟩ := exists_indent (hfits.indent_lt rfl)
    cases hjoins : joins (.stmt s) with
    | false =>
      rw [joinCalls_eq_nil hjoins, endVisit_stmt hjoins, hindent, Option.bind_some]
      exact ⟨exists_endVisit_stmt indentString hlen hjoins, List.forall_mem_nil _⟩
    | true =>
      have hlt := hfits.strings_lt hjoins
      cases s with
      | blockStmt id stmts =>
        rw [ASTNode.getChildren, ASTStmt.getChildren, List.length_map] at hlen hlt
        obtain ⟨hcall, stmtsString, hstmts⟩ :=
          joinsLast_children "\n" 0 hlen (Nat.zero_le _) hlt
        refine ⟨⟨indentString ++ "\x7b\n" ++ stmtsString ++ indentString ++ "\x7d", ?_⟩,
          List.forall_mem_singleton.2 hcall⟩
        rw [endVisit, hindent, Option.bind_eq_bind, Option.bind_some, hstmts]
        rfl
      | _ => cases hjoins
  | returnStmt s =>
    obtain ⟨t, rfl⟩ := List.length_eq_one_iff.1 hlen
    obtain ⟨indentString, hindent⟩ := exists_indent (hfits.indent_lt rfl)
    refine ⟨⟨indentString ++ "return " ++ t ++ ";", ?_⟩, List.forall_mem_nil _⟩
    rw [endVisit, hindent, Option.bind_eq_bind, Option.bind_some]
    rfl

theorem inRange_of_indent {indentString : String}
    (h : indent indentChar indentSize level = some indentString) :
    0 ≤ level * indentSize.toInt ∧ level * indentSize.toInt < 2 ^ 31 := by
  rw [indent] at h
  split at h
  · assumption
  · cases h

/-- A method that has called `indent` did so in range. -/
theorem inRange_of_endVisit {stack results : List String} (hcalls : callsIndent n = true)
    (hend : endVisit indentChar indentSize level stack n = some results) :
    0 ≤ level * indentSize.toInt ∧ level * indentSize.toInt < 2 ^ 31 := by
  cases n with
  | function f | declNode d | expr e | fieldExpr f => cases hcalls
  | declStmt s | returnStmt s =>
    obtain ⟨indentString, hindent, -⟩ := Option.bind_eq_some_iff.1 hend
    exact inRange_of_indent hindent
  | stmt s =>
    cases s with
    | blockStmt _ _ | updateStmt _ _ _ | outputStmt _ _ | errorStmt _ _ | assignStmt _ _ _
    | whileStmt _ _ _ | ifStmt _ _ _ _ | forStmt _ _ _ _ =>
      obtain ⟨indentString, hindent, -⟩ := Option.bind_eq_some_iff.1 hend
      exact inRange_of_indent hindent

/-- An array that leaves what was below its elements has popped as many strings as it has elements. -/
theorem elements_lt_of_endVisit {id : NodeId} {elements : List ASTExpr} {text : String}
    (hlen : ts.length = elements.length)
    (hend : endVisit indentChar indentSize level (ts ++ ss) (.expr (.arrayExpr id elements)) =
      some (text :: ss)) : elements.length < 2 ^ 31 := by
  have hlt := toInt_lt elements.length
  rw [endVisit] at hend
  split at hend
  · cases hend
  · have hdrop := congrArg List.length (List.cons.inj (Option.some.inj hend)).2
    rw [List.length_drop, List.length_append] at hdrop
    rw [List.length_append] at *
    omega

/-- A method that joins calls `joinWithDelim` on the whole stack. -/
theorem length_lt_of_joinCalls {stack : List String} (hjoins : joins n = true)
    (h : ∀ call ∈ joinCalls stack n, JoinsLast call.visitResults call.delim call.sz call.skip) :
    stack.length < 2 ^ 31 := by
  cases n with
  | function f | declStmt s => exact (h _ List.mem_cons_self).length_lt
  | declNode d | fieldExpr f | returnStmt s => cases hjoins
  | expr e =>
    cases e with
    | funAppExpr _ _ _ | recordExpr _ _ => exact (h _ List.mem_cons_self).length_lt
    | _ => cases hjoins
  | stmt s =>
    cases s with
    | blockStmt _ _ => exact (h _ List.mem_cons_self).length_lt
    | _ => cases hjoins

/-- Conversely, where a method keeps to the discipline, nothing has left its range. -/
theorem fits_of_endVisit {text : String} (hlen : ts.length = n.getChildren.length)
    (hlevel : n.indents = true → level + 1 < 2 ^ 31)
    (hend : endVisit indentChar indentSize level (ts ++ ss) n = some (text :: ss))
    (hcalls : ∀ call ∈ joinCalls (ts ++ ss) n,
      JoinsLast call.visitResults call.delim call.sz call.skip) :
    Fits indentSize ss.length level n where
  level_lt := hlevel
  indent_lt := fun h ↦ inRange_of_endVisit h hend
  strings_lt := fun h ↦ by
    have hlt := length_lt_of_joinCalls h hcalls
    rw [List.length_append, hlen] at hlt
    omega
  elements_lt := fun h ↦ by
    cases n with
    | expr e =>
      cases e with
      | arrayExpr id elements =>
        rw [ASTNode.getChildren, ASTExpr.getChildren, List.length_map] at hlen ⊢
        exact elements_lt_of_endVisit hlen hend
      | _ => cases h
    | _ => cases h

/-! ### The traversal -/

section Traversal

variable {p : PrettyPrinter} {events events' : List VisitEvent}

theorem visitAll_append (p : PrettyPrinter) (events events' : List VisitEvent) :
    visitAll indentChar indentSize p (events ++ events') =
      (visitAll indentChar indentSize p events).bind
        fun p' ↦ visitAll indentChar indentSize p' events' :=
  List.foldlM_append

theorem visitAll_of_append {start : PrettyPrinter}
    (h : visitAll indentChar indentSize start events = some p) (events' : List VisitEvent) :
    visitAll indentChar indentSize start (events ++ events') =
      visitAll indentChar indentSize p events' := by
  rw [visitAll_append, h, Option.bind_some]

theorem visitAll_cons (p : PrettyPrinter) (event : VisitEvent) (events : List VisitEvent) :
    visitAll indentChar indentSize p (event :: events) =
      (step indentChar indentSize p event).bind
        fun p' ↦ visitAll indentChar indentSize p' events :=
  List.foldlM_cons

theorem step_visit (h : n.indents = true → p.indentLevel + 1 < 2 ^ 31) :
    step indentChar indentSize p (.visit n) =
      some ⟨p.visitResults, p.indentLevel + n.indents.toNat⟩ :=
  if_neg fun hnot ↦ hnot.2 (h hnot.1)

theorem inRange_of_step_visit {p' : PrettyPrinter}
    (h : step indentChar indentSize p (.visit n) = some p') (hindents : n.indents = true) :
    p.indentLevel + 1 < 2 ^ 31 := by
  by_contra hnot
  rw [step, if_pos ⟨hindents, hnot⟩] at h
  cases h

/-- The calls for nodes that push one string each, one node after the other. -/
theorem exists_visitAll_nodes (p : PrettyPrinter) (nodes : List ASTNode) (h : ∀ cs c cs', nodes = cs ++ c :: cs' →
      ∀ p', visitAll indentChar indentSize p (cs.flatMap ASTNode.accept) = some p' →
        p'.visitResults.length = p.visitResults.length + cs.length →
        p'.indentLevel = p.indentLevel →
        ∃ text, visitAll indentChar indentSize p' c.accept =
          some ⟨text :: p'.visitResults, p'.indentLevel⟩) :
    ∃ ts : List String, ts.length = nodes.length ∧
      visitAll indentChar indentSize p (nodes.flatMap ASTNode.accept) =
        some ⟨ts ++ p.visitResults, p.indentLevel⟩ := by
  induction nodes using List.reverseRecOn with
  | nil => exact ⟨[], rfl, rfl⟩
  | append_singleton nodes n ih =>
    obtain ⟨ts, hts, hrun⟩ := ih fun cs c cs' hnodes ↦ h cs c (cs' ++ [n]) (by
      rw [hnodes, List.append_assoc, List.cons_append])
    obtain ⟨text, htext⟩ := h nodes n [] rfl _ hrun
      (by rw [List.length_append, hts, Nat.add_comm]) rfl
    refine ⟨text :: ts, by rw [List.length_cons, List.length_append, hts]; rfl, ?_⟩
    rw [List.flatMap_append, flatMap_accept_singleton, visitAll_of_append hrun, htext]
    rfl

end Traversal

section Program

variable {program : ASTProgram} {events : List VisitEvent} {p : PrettyPrinter}

/-- Wherever the node occurs, its calls push one string, if as many strings are on the stack as
subtrees wait. -/
def Pushes (program : ASTProgram) (indentChar : Char) (indentSize : Int32) (n : ASTNode) : Prop :=
  ∀ events (p : PrettyPrinter), program.Occurs events p.visitResults.length p.indentLevel n →
    visitAll indentChar indentSize ⟨[], 0⟩ events = some p →
    ∃ text, visitAll indentChar indentSize p n.accept =
      some ⟨text :: p.visitResults, p.indentLevel⟩

/-- The traversal as far as some of the children of a node. -/
theorem exists_visitAll_children
    (hoccurs : program.Occurs events p.visitResults.length p.indentLevel n)
    (hp : visitAll indentChar indentSize ⟨[], 0⟩ events = some p)
    (hlevel : n.indents = true → p.indentLevel + 1 < 2 ^ 31) {cs cs' : List ASTNode}
    (hpushes : ∀ c ∈ cs, Pushes program indentChar indentSize c)
    (hc : n.getChildren = cs ++ cs') :
    ∃ ts : List String, ts.length = cs.length ∧
      visitAll indentChar indentSize ⟨[], 0⟩ (events ++ .visit n :: cs.flatMap ASTNode.accept) =
        some ⟨ts ++ p.visitResults, p.indentLevel + n.indents.toNat⟩ := by
  have hrun : ∀ events', visitAll indentChar indentSize ⟨[], 0⟩ (events ++ .visit n :: events') =
      visitAll indentChar indentSize ⟨p.visitResults, p.indentLevel + n.indents.toNat⟩ events' := by
    intro events'
    rw [visitAll_of_append hp, visitAll_cons, step_visit hlevel, Option.bind_some]
  rw [hrun]
  refine exists_visitAll_nodes _ cs fun as c bs hcs p' hp' hlen hlev ↦ ?_
  refine hpushes c (by rw [hcs]; simp) _ p' ?_ ((hrun _).trans hp')
  rw [hlen, hlev]
  exact hoccurs.child (hc.trans (by rw [hcs, List.append_assoc, List.cons_append]))

/-- The traversal as far as some of the functions. -/
theorem exists_visitAll_functions (hpushes : ∀ n, Pushes program indentChar indentSize n)
    {fs fs' : List ASTFunction} (h : program.functions = fs ++ fs') :
    ∃ ts : List String, ts.length = fs.length ∧
      visitAll indentChar indentSize ⟨[], 0⟩ (fs.flatMap ASTFunction.accept) = some ⟨ts, 0⟩ := by
  have hmap : ∀ fs : List ASTFunction,
      (fs.map ASTNode.function).flatMap ASTNode.accept = fs.flatMap ASTFunction.accept :=
    flatMap_map_accept fun _ ↦ rfl
  obtain ⟨ts, hts, hrun⟩ := exists_visitAll_nodes ⟨[], 0⟩ (fs.map ASTNode.function)
    (fun cs c cs' hcs p' hp' hlen hlev ↦ by
      obtain ⟨as, bs, rfl, rfl, hbs⟩ := List.map_eq_append_iff.1 hcs
      obtain ⟨f, bs', rfl, rfl, rfl⟩ := List.map_eq_cons_iff.1 hbs
      rw [hmap] at hp'
      refine hpushes _ _ p' ?_ hp'
      rw [hlen, hlev, List.length_map]
      exact (Nat.zero_add as.length).symm ▸
        .function (h.trans (by rw [List.append_assoc, List.cons_append])))
  rw [hmap, List.append_nil] at hrun
  exact ⟨ts, hts.trans (List.length_map _), hrun⟩

theorem inRange_of_visitAll {p' : PrettyPrinter}
    (h : visitAll indentChar indentSize p n.accept = some p') (hindents : n.indents = true) :
    p.indentLevel + 1 < 2 ^ 31 := by
  rw [n.accept_eq, visiting, List.cons_append, visitAll_cons] at h
  obtain ⟨p', hp', -⟩ := Option.bind_eq_some_iff.1 h
  exact inRange_of_step_visit hp' hindents

/-- The traversal comes to every node with the strings of the subtrees that wait. -/
theorem exists_visitAll_of_occurs (hpushes : ∀ n, Pushes program indentChar indentSize n)
    {waiting : ℕ} (h : program.Occurs events waiting level n) :
    ∃ p, visitAll indentChar indentSize ⟨[], 0⟩ events = some p ∧
      p.visitResults.length = waiting ∧ p.indentLevel = level := by
  induction h with
  | @function fs fs' f h =>
    obtain ⟨ts, hts, hrun⟩ := exists_visitAll_functions hpushes h
    exact ⟨_, hrun, hts, rfl⟩
  | @child events waiting level n c cs cs' h hc ih =>
    obtain ⟨p, hp, rfl, rfl⟩ := ih
    obtain ⟨text, htext⟩ := hpushes n events p h hp
    obtain ⟨ts, hts, hrun⟩ := exists_visitAll_children h hp (inRange_of_visitAll htext)
      (fun c _ ↦ hpushes c) hc
    exact ⟨_, hrun, by rw [List.length_append, hts, Nat.add_comm], rfl⟩

/-- The end of the visit of a node, behind its children. -/
theorem visitAll_accept {ts : List String}
    (hp : visitAll indentChar indentSize ⟨[], 0⟩ events = some p)
    (hrun : visitAll indentChar indentSize ⟨[], 0⟩
        (events ++ .visit n :: n.getChildren.flatMap ASTNode.accept) =
      some ⟨ts ++ p.visitResults, p.indentLevel + n.indents.toNat⟩) :
    visitAll indentChar indentSize p n.accept =
      (endVisit indentChar indentSize p.indentLevel (ts ++ p.visitResults) n).map
        fun visitResults ↦ ⟨visitResults, p.indentLevel⟩ := by
  rw [visitAll_of_append hp] at hrun
  rw [n.accept_eq, visiting, visitAll_of_append hrun, visitAll_cons, step, Nat.add_sub_cancel]
  cases endVisit indentChar indentSize p.indentLevel (ts ++ p.visitResults) n with
  | none => rfl
  | some visitResults => rfl

end Program

end PrettyPrinter.Machine

/-! ### When the printer keeps to the discipline -/

/-- There is a function, there are fewer functions than an `int` counts, and at every node the numbers
of the printer fit. -/
structure ASTProgram.FitsInt (program : ASTProgram) (indentSize : Int32) : Prop where
  functions_ne : program.functions ≠ []
  functions_lt : program.functions.length < 2 ^ 31
  nodes : ∀ events waiting level n, program.Occurs events waiting level n →
    Machine.Fits indentSize waiting level n

namespace ASTProgram

variable {program : ASTProgram} {indentChar : Char} {indentSize : Int32}

open Machine

theorem FitsInt.pushes (h : program.FitsInt indentSize) (indentChar : Char) (n : ASTNode) :
    Pushes program indentChar indentSize n := by
  refine ASTNode.induction_children (fun n ih events p hoccurs hp ↦ ?_) n
  have hfits := h.nodes events _ _ n hoccurs
  obtain ⟨ts, hts, hrun⟩ :=
    exists_visitAll_children hoccurs hp hfits.level_lt ih (List.append_nil _).symm
  obtain ⟨⟨text, htext⟩, -⟩ := hfits.exists_endVisit indentChar hts hoccurs.waiting_pos
  refine ⟨text, ?_⟩
  rw [visitAll_accept hp hrun, htext]
  rfl

theorem FitsInt.stackDiscipline (h : program.FitsInt indentSize) :
    program.StackDiscipline indentChar indentSize where
  subtrees := fun events n rest hsplit ↦ by
    obtain ⟨waiting, level, hoccurs⟩ := ASTProgram.exists_occurs hsplit
    obtain ⟨p, hp, rfl, rfl⟩ := exists_visitAll_of_occurs (h.pushes indentChar) hoccurs
    have hfits := h.nodes events _ _ n hoccurs
    obtain ⟨text, htext⟩ := h.pushes indentChar n events p hoccurs hp
    obtain ⟨ts, hts, hrun⟩ := exists_visitAll_children hoccurs hp hfits.level_lt
      (fun c _ ↦ h.pushes indentChar c) (List.append_nil _).symm
    obtain ⟨-, hjoins⟩ := hfits.exists_endVisit indentChar hts hoccurs.waiting_pos
    exact ⟨⟨p, text, hp, htext⟩, _, hrun, hjoins⟩
  program := by
    obtain ⟨ts, hts, hrun⟩ :=
      exists_visitAll_functions (h.pushes indentChar) (List.append_nil _).symm
    refine ⟨_, hrun, joinsLast_iff.2 ⟨hts.ge, ?_, hts.trans_lt h.functions_lt⟩⟩
    rw [hts]
    exact List.length_pos_iff.2 h.functions_ne

theorem StackDiscipline.pushes (h : program.StackDiscipline indentChar indentSize) (n : ASTNode) :
    Pushes program indentChar indentSize n := by
  intro events p hoccurs hp
  obtain ⟨rest, hrest⟩ := hoccurs.exists_rest
  obtain ⟨p', text, hp', htext⟩ := (h.subtrees events n rest hrest).pushes
  obtain rfl := Option.some.inj (hp.symm.trans hp')
  exact ⟨text, htext⟩

theorem StackDiscipline.fitsInt (h : program.StackDiscipline indentChar indentSize) :
    program.FitsInt indentSize where
  functions_ne := fun hnil ↦ by
    obtain ⟨p, hp, hjoins⟩ := h.program
    rw [ASTProgram.accept, hnil] at hp
    cases hp
    obtain ⟨-, hskip, -⟩ := joinsLast_iff.1 hjoins
    exact Nat.not_succ_le_zero 0 hskip
  functions_lt := by
    obtain ⟨p, -, hjoins⟩ := h.program
    exact hjoins.size_le.trans_lt hjoins.length_lt
  nodes := fun events waiting level n hoccurs ↦ by
    obtain ⟨p, hp, rfl, rfl⟩ := exists_visitAll_of_occurs h.pushes hoccurs
    obtain ⟨text, htext⟩ := h.pushes n events p hoccurs hp
    obtain ⟨ts, hts, hrun⟩ := exists_visitAll_children hoccurs hp (inRange_of_visitAll htext)
      (fun c _ ↦ h.pushes c) (List.append_nil _).symm
    obtain ⟨rest, hrest⟩ := hoccurs.exists_rest
    obtain ⟨p', hp', hjoins⟩ := (h.subtrees events n rest hrest).joins
    obtain rfl := Option.some.inj (hrun.symm.trans hp')
    have hend := (visitAll_accept hp hrun).symm.trans htext
    obtain ⟨results, hresults, heq⟩ := Option.map_eq_some_iff.1 hend
    cases heq
    exact fits_of_endVisit hts (inRange_of_visitAll htext) hresults hjoins

/-- The printer keeps to the discipline exactly on the programs whose numbers fit. -/
theorem stackDiscipline_iff (program : ASTProgram) (indentChar : Char) (indentSize : Int32) :
    program.StackDiscipline indentChar indentSize ↔ program.FitsInt indentSize :=
  ⟨StackDiscipline.fitsInt, FitsInt.stackDiscipline⟩

end ASTProgram

/-! ### Too many formals -/

theorem visitedNodes_flatMap_declNode (ds : List ASTDeclNode) :
    visitedNodes (ds.flatMap ASTDeclNode.accept) = ds.map ASTDeclNode.node := by
  induction ds with
  | nil => rfl
  | cons d ds ih =>
    rw [List.flatMap_cons, visitedNodes, List.filterMap_append]
    exact congrArg (d.node :: ·) ih

/-- A function `main` with the formals `x0`, `x1` and so on, as many as are asked for. -/
def manyFormals (n : ℕ) : ASTFunction where
  node := 0
  decl := ⟨1, "main"⟩
  formals := (List.range n).map fun i ↦ ⟨i + 4, "x" ++ toString i⟩
  declarations := []
  body := []
  ret := ⟨2, .numberExpr 3 0⟩
  isPoly := false

theorem visitedNodes_manyFormals (n : ℕ) :
    visitedNodes ([manyFormals n].flatMap ASTFunction.accept) =
      0 :: 1 :: ((List.range n).map (· + 4) ++ [2, 3]) := by
  have hformals : visitedNodes ((manyFormals n).formals.flatMap ASTDeclNode.accept) =
      (List.range n).map (· + 4) := by
    rw [visitedNodes_flatMap_declNode, manyFormals, List.map_map]
    rfl
  have hret : visitedNodes ((manyFormals n).ret.accept ++ [.endVisit (.function (manyFormals n))]) =
      [2, 3] := rfl
  have haccept : [manyFormals n].flatMap ASTFunction.accept =
      .visit (.function (manyFormals n)) :: .visit (.declNode (manyFormals n).decl) ::
        .endVisit (.declNode (manyFormals n).decl) ::
          ((manyFormals n).formals.flatMap ASTDeclNode.accept ++
            ((manyFormals n).ret.accept ++ [.endVisit (.function (manyFormals n))])) := by
    rw [List.flatMap_singleton, ASTFunction.accept_eq, ASTFunction.innerEvents, List.append_assoc,
      List.append_assoc]
    rfl
  rw [visitedNodes] at hformals hret ⊢
  rw [haccept, List.filterMap_cons, List.filterMap_cons, List.filterMap_cons, List.filterMap_append,
    hformals, hret]
  rfl

/-- The program of that function. -/
def manyFormalsProgram (n : ℕ) : ASTProgram where
  functions := [manyFormals n]
  distinct := by
    rw [visitedNodes_manyFormals]
    have hrange : ((List.range n).map (· + 4)).Nodup :=
      List.nodup_range.map fun _ _ h ↦ Nat.add_right_cancel h
    simp [List.nodup_append, hrange]

theorem formals_lt_of_stackDiscipline {n : ℕ} {indentChar : Char} {indentSize : Int32}
    (h : (manyFormalsProgram n).StackDiscipline indentChar indentSize) : n + 2 < 2 ^ 31 := by
  have hfunctions : (manyFormalsProgram n).functions = [] ++ manyFormals n :: [] := rfl
  have hlt := (h.fitsInt.nodes _ _ _ _ (.function hfunctions)).strings_lt rfl
  simp only [ASTNode.getChildren, manyFormals, List.length_cons, List.length_append, List.length_map,
    List.length_range, List.length_nil] at hlt
  omega

/-- With `2 ^ 31` formals the first index wraps around. -/
theorem ASTProgram.not_stackDiscipline_manyFormals :
    ¬ (manyFormalsProgram (2 ^ 31)).StackDiscipline ' ' 2 := by
  intro h
  have hlt := formals_lt_of_stackDiscipline h
  omega

end Sipc
