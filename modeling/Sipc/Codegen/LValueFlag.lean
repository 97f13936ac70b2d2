import Sipc.Codegen.Flags
import Sipc.Frontend.SyntaxTree

/-!
# `lValueGen`

In a weeded program `lValueGen` is set on entry to an expression exactly if its address is wanted, and
it is clear between the statements (`ASTProgram.lValueGen_scoped`). Only an expression with an l-value
is entered with the flag set, and each of the four kinds of them sees to it that the flag is clear for
the expressions inside.
-/

set_option autoImplicit false
set_option relaxedAutoImplicit false

namespace Sipc

open Llvm Library

/-! ### `lValueGen` -/

/-- The expressions with their flag `lValueGen`. -/
def lValues (l : List Entry) : List (ASTExpr × Bool) :=
  l.map fun x ↦ (x.1, x.2.lValueGen)

theorem lValues_append (l l' : List Entry) : lValues (l ++ l') = lValues l ++ lValues l' :=
  List.map_append

/-- The two lists agree on `lValueGen`, and the flag is clear afterwards if it was before. -/
structure LValuesScoped (b : Flags) (l l' : List Entry) (after : Flags) : Prop where
  entries : lValues l = lValues l'
  after : b.lValueGen = false → after.lValueGen = false

namespace LValuesScoped

variable {b b' b'' after : Flags} {l l' k k' : List Entry} {e : ASTExpr}

theorem nil : LValuesScoped b [] [] b :=
  ⟨rfl, id⟩

theorem append (h : LValuesScoped b l l' b') (hb : b.lValueGen = false)
    (h' : b'.lValueGen = false → LValuesScoped b' k k' b'') :
    LValuesScoped b (l ++ k) (l' ++ k') b'' := by
  have hk := h' (h.after hb)
  refine ⟨?_, fun _ ↦ hk.after (h.after hb)⟩
  rw [lValues_append, lValues_append, h.entries, hk.entries]

/-- An expression that no address is wanted of, and its sub-expressions. -/
theorem cons (hb : b.lValueGen = b'.lValueGen) (h : LValuesScoped b l l' after) :
    LValuesScoped b ((e, b) :: l) ((e, b') :: l') after := by
  refine ⟨?_, h.after⟩
  change (e, b.lValueGen) :: lValues l = (e, b'.lValueGen) :: lValues l'
  rw [hb, h.entries]

end LValuesScoped

section LValueGen

variable {wanted : ASTExpr → Prop}

theorem lValueGen_eq_false {b : Flags} {e : ASTExpr}
    (h : b.lValueGen = true → isAssignableOrDeRef e = true) (he : isAssignableOrDeRef e = false) :
    b.lValueGen = false := by
  cases hb : b.lValueGen with
  | false => rfl
  | true => exact absurd (h hb) (by rw [he]; exact Bool.false_ne_true)

theorem isAssignableOrDeRef_of_isAssignable {e : ASTExpr} (h : isAssignable e = true) :
    isAssignableOrDeRef e = true := by
  unfold isAssignableOrDeRef
  split
  · rfl
  · exact h

mutual

/-- Where the flag is set for expressions with an l-value only, the sub-expressions of a weeded
expression get it as they should. -/
theorem ASTExpr.lValuesScoped : ∀ (e : ASTExpr) {b b' : Flags}, Weeded wanted e.accept →
    (b.lValueGen = true → isAssignableOrDeRef e = true) → b.lValueGen = b'.lValueGen →
    LValuesScoped b (e.entries b) (e.scoped b') (e.flagsAfter b)
  | .numberExpr _ _, _, _, _, _, hb => .cons hb .nil
  | .boolExpr _ _, _, _, _, _, hb => .cons hb .nil
  | .inputExpr _, _, _, _, _, hb => .cons hb .nil
  | .nullExpr _, _, _, _, _, hb => .cons hb .nil
  | .variableExpr _ _, _, _, _, _, hb => .cons hb .nil
  | .binaryExpr _ _ l r, b, b', hw, ha, hb => by
    obtain ⟨hl, hr⟩ := hw.of_visiting.2.of_append
    have hf := lValueGen_eq_false ha rfl
    exact .cons hb (.append (l.lValuesScoped_value hl hf) hf (r.lValuesScoped_value hr))
  | .notExpr _ a, b, b', hw, ha, hb =>
    .cons hb (a.lValuesScoped_value hw.of_visiting.2 (lValueGen_eq_false ha rfl))
  | .negExpr _ a, b, b', hw, ha, hb =>
    .cons hb (a.lValuesScoped_value hw.of_visiting.2 (lValueGen_eq_false ha rfl))
  | .arrayLenExpr _ a, b, b', hw, ha, hb =>
    .cons hb (a.lValuesScoped_value hw.of_visiting.2 (lValueGen_eq_false ha rfl))
  | .funAppExpr _ f as, b, b', hw, ha, hb => by
    obtain ⟨hf, has⟩ := hw.of_visiting.2.of_append
    have hfalse := lValueGen_eq_false ha rfl
    exact .cons hb (.append (f.lValuesScoped_value hf hfalse) hfalse
      (ASTExpr.lValuesScopedList as has))
  | .allocExpr _ a, b, b', hw, ha, hb => by
    have hf := lValueGen_eq_false ha rfl
    have h : LValuesScoped { b with allocFlag := true } _ (a.scoped ⟨false, true⟩) _ :=
      a.lValuesScoped hw.of_visiting.2 (fun h ↦ absurd (hf.symm.trans h) Bool.false_ne_true) hf
    exact .cons hb ⟨h.entries, h.after⟩
  | .refExpr _ a, b, b', hw, ha, hb => by
    obtain ⟨hnode, hinner⟩ := hw.of_visiting
    have h : LValuesScoped { b with lValueGen := true } _
        (a.scoped { b' with lValueGen := true }) _ :=
      a.lValuesScoped hinner
        (fun _ ↦ isAssignableOrDeRef_of_isAssignable (of_ite_eq_ok hnode.1)) rfl
    exact .cons hb ⟨h.entries, fun _ ↦ rfl⟩
  | .deRefExpr _ a, b, b', hw, _, hb => by
    have h : LValuesScoped { b with lValueGen := false } _ (a.scoped b'.inner) _ :=
      a.lValuesScoped_value hw.of_visiting.2 rfl
    exact .cons hb ⟨h.entries, fun _ ↦ h.after rfl⟩
  | .accessExpr _ a _, b, b', hw, _, hb => by
    have h : LValuesScoped { b with lValueGen := false } _ (a.scoped b'.inner) _ :=
      a.lValuesScoped_value hw.of_visiting.2 rfl
    exact .cons hb ⟨h.entries, fun _ ↦ h.after rfl⟩
  | .recordExpr _ fs, b, b', hw, ha, hb =>
    .cons hb (ASTExpr.lValuesScopedFields fs hw.of_visiting.2 (lValueGen_eq_false ha rfl))
  | .ternaryExpr _ c t f, b, b', hw, ha, hb => by
    obtain ⟨hct, hf⟩ := hw.of_visiting.2.of_append
    obtain ⟨hc, ht⟩ := hct.of_append
    have hfalse := lValueGen_eq_false ha rfl
    exact .cons hb (.append (.append (c.lValuesScoped_value hc hfalse) hfalse
      (t.lValuesScoped_value ht)) hfalse (f.lValuesScoped_value hf))
  | .arrayExpr _ es, b, b', hw, ha, hb =>
    .cons hb (ASTExpr.lValuesScopedList es hw.of_visiting.2 (lValueGen_eq_false ha rfl))
  | .arrayOfExpr _ e₁ e₂, b, b', hw, ha, hb => by
    obtain ⟨h₁, h₂⟩ := hw.of_visiting.2.of_append
    have hf := lValueGen_eq_false ha rfl
    exact .cons hb (.append (e₁.lValuesScoped_value h₁ hf) hf (e₂.lValuesScoped_value h₂))
  | .indexingExpr _ a i, b, b', hw, _, hb => by
    obtain ⟨ha, hi⟩ := hw.of_visiting.2.of_append
    have h : LValuesScoped { b with lValueGen := false } _ (a.scoped b'.inner ++ i.scoped b'.inner) _ :=
      .append (a.lValuesScoped_value ha rfl) rfl (i.lValuesScoped_value hi)
    exact .cons hb ⟨h.entries, id⟩

/-- The same for an expression whose value is wanted. -/
theorem ASTExpr.lValuesScoped_value (e : ASTExpr) {b b' : Flags} (hw : Weeded wanted e.accept)
    (hb : b.lValueGen = false) :
    LValuesScoped b (e.entries b) (e.scoped b'.inner) (e.flagsAfter b) :=
  e.lValuesScoped hw (fun h ↦ absurd (hb.symm.trans h) Bool.false_ne_true) hb

theorem ASTExpr.lValuesScopedList : ∀ (es : List ASTExpr) {b b' : Flags},
    Weeded wanted (ASTExpr.acceptList es) → b.lValueGen = false →
    LValuesScoped b (ASTExpr.entriesList b es) (ASTExpr.scopedList b'.inner es)
      (ASTExpr.flagsAfterList b es)
  | [], _, _, _, _ => .nil
  | e :: es, _, _, hw, hb => by
    obtain ⟨he, hes⟩ := Weeded.of_append hw
    exact .append (e.lValuesScoped_value he hb) hb (ASTExpr.lValuesScopedList es hes)

theorem ASTExpr.lValuesScopedFields : ∀ (fs : List ASTFieldExpr) {b b' : Flags},
    Weeded wanted (ASTExpr.acceptFields fs) → b.lValueGen = false →
    LValuesScoped b (ASTExpr.entriesFields b fs) (ASTExpr.scopedFields b'.inner fs)
      (ASTExpr.flagsAfterFields b fs)
  | [], _, _, _, _ => .nil
  | .mk _ _ e :: fs, _, _, hw, hb => by
    obtain ⟨he, hfs⟩ := Weeded.of_append hw
    exact .append (e.lValuesScoped_value he.of_visiting.2 hb) hb
      (ASTExpr.lValuesScopedFields fs hfs)

end

theorem ASTExpr.lValuesScopedValue {e : ASTExpr} (hw : Weeded wanted e.accept) {b : Flags}
    (hb : b.lValueGen = false) : LValuesScoped b (e.entries b) e.scopedValue (e.flagsAfter b) :=
  e.lValuesScoped hw (fun h ↦ absurd (hb.symm.trans h) Bool.false_ne_true) hb

theorem ASTExpr.lValuesScopedAddress {e : ASTExpr} (hw : Weeded wanted e.accept)
    (he : isAssignableOrDeRef e = true) (b : Flags) :
    LValuesScoped b (e.entries { b with lValueGen := true }) e.scopedAddress
      (e.flagsAfterAddress b) := by
  have h : LValuesScoped { b with lValueGen := true } _ e.scopedAddress _ :=
    e.lValuesScoped hw (fun _ ↦ he) rfl
  exact ⟨h.entries, fun _ ↦ rfl⟩

theorem ForDomain.lValuesScoped {d : ForDomain} (hw : Weeded wanted d.accept) {b : Flags}
    (hb : b.lValueGen = false) : LValuesScoped b (d.entries b) d.scoped (d.flagsAfter b) := by
  cases d with
  | iterator e => exact ASTExpr.lValuesScopedValue hw hb
  | range s e i =>
    cases i with
    | none =>
      obtain ⟨hs, he⟩ := Weeded.of_append hw
      exact .append (ASTExpr.lValuesScopedValue hs hb) hb (ASTExpr.lValuesScopedValue he)
    | some i =>
      obtain ⟨hse, hi⟩ := Weeded.of_append hw
      obtain ⟨hs, he⟩ := hse.of_append
      exact .append (.append (ASTExpr.lValuesScopedValue hs hb) hb
        (ASTExpr.lValuesScopedValue he)) hb (ASTExpr.lValuesScopedValue hi)

mutual

theorem ASTStmt.lValuesScoped : ∀ (s : ASTStmt) {b : Flags}, Weeded wanted s.accept →
    b.lValueGen = false → LValuesScoped b (s.entries b) s.scoped (s.flagsAfter b)
  | .assignStmt _ lhs rhs, b, hw, hb => by
    obtain ⟨hnode, hinner⟩ := hw.of_visiting
    obtain ⟨hl, hr⟩ := hinner.of_append
    exact .append (ASTExpr.lValuesScopedAddress hl (of_ite_eq_ok hnode.1) b) hb
      (ASTExpr.lValuesScopedValue hr)
  | .updateStmt _ a _, b, hw, _ => by
    obtain ⟨hnode, hinner⟩ := hw.of_visiting
    exact ASTExpr.lValuesScopedAddress hinner (of_ite_eq_ok hnode.1) b
  | .blockStmt _ stmts, _, hw, hb => ASTStmt.lValuesScopedList stmts hw.of_visiting.2 hb
  | .whileStmt _ c body, _, hw, hb => by
    obtain ⟨hc, hbody⟩ := hw.of_visiting.2.of_append
    exact .append (ASTExpr.lValuesScopedValue hc hb) hb (body.lValuesScoped hbody)
  | .forStmt _ item d body, b, hw, hb => by
    obtain ⟨hnode, hinner⟩ := hw.of_visiting
    obtain ⟨hid, hbody⟩ := hinner.of_append
    obtain ⟨hitem, hd⟩ := hid.of_append
    exact .append (.append (ASTExpr.lValuesScopedAddress hitem (of_ite_eq_ok hnode.1) b) hb
      (ForDomain.lValuesScoped hd)) hb (body.lValuesScoped hbody)
  | .ifStmt _ c t none, _, hw, hb => by
    obtain ⟨hc, ht⟩ := hw.of_visiting.2.of_append
    exact .append (ASTExpr.lValuesScopedValue hc hb) hb (t.lValuesScoped ht)
  | .ifStmt _ c t (some f), _, hw, hb => by
    obtain ⟨hct, hf⟩ := hw.of_visiting.2.of_append
    obtain ⟨hc, ht⟩ := hct.of_append
    exact .append (.append (ASTExpr.lValuesScopedValue hc hb) hb (t.lValuesScoped ht)) hb
      (f.lValuesScoped hf)
  | .outputStmt _ _, _, hw, hb => ASTExpr.lValuesScopedValue hw.of_visiting.2 hb
  | .errorStmt _ _, _, hw, hb => ASTExpr.lValuesScopedValue hw.of_visiting.2 hb

theorem ASTStmt.lValuesScopedList : ∀ (stmts : List ASTStmt) {b : Flags},
    Weeded wanted (ASTStmt.acceptList stmts) → b.lValueGen = false →
    LValuesScoped b (ASTStmt.entriesList b stmts) (ASTStmt.scopedList stmts)
      (ASTStmt.flagsAfterList b stmts)
  | [], _, _, _ => .nil
  | s :: stmts, _, hw, hb => by
    obtain ⟨hs, hstmts⟩ := Weeded.of_append hw
    exact .append (s.lValuesScoped hs hb) hb (ASTStmt.lValuesScopedList stmts hstmts)

end

theorem ASTFunction.weeded_body {f : ASTFunction} (hw : Weeded wanted f.accept) :
    Weeded wanted (ASTStmt.acceptList f.body) ∧ Weeded wanted f.ret.arg.accept := by
  obtain ⟨hinner, hret⟩ := hw.of_visiting.2.of_append
  exact ⟨hinner.of_append.2, hret.of_visiting.2⟩

theorem lValuesScoped_functions : ∀ (fs : List ASTFunction) {b : Flags},
    Weeded wanted (fs.flatMap ASTFunction.accept) → b.lValueGen = false →
    LValuesScoped b (functionEntries b fs) (fs.flatMap ASTFunction.scoped) (functionFlagsAfter b fs)
  | [], _, _, _ => .nil
  | f :: fs, _, hw, hb => by
    obtain ⟨hf, hfs⟩ := Weeded.of_append hw
    obtain ⟨hbody, hret⟩ := ASTFunction.weeded_body hf
    exact .append (.append (ASTStmt.lValuesScopedList f.body hbody hb) hb
      (ASTExpr.lValuesScopedValue hret)) hb (lValuesScoped_functions fs hfs)

/-! ### `lValueGen` between statements -/

/-- With `lValueGen` clear before, it is clear after, if `m` does not fail. -/
def LeavesLValueGenClear {α : Type} (m : Generate α) : Prop :=
  ∀ s a s', s.lValueGen = false → Run.Returns m s a s' → s'.lValueGen = false

/-- What is known of the flags after `m`. -/
theorem Llvm.Enters.leavesLValueGenClear {α : Type} {m : Generate α} {l : Flags → List Entry}
    {after : Flags → Flags} (h : ∀ b, Enters b m (l b) (after b))
    (hafter : ∀ b : Flags, b.lValueGen = false → (after b).lValueGen = false) :
    LeavesLValueGenClear m := by
  intro s a s' hs hrun
  obtain ⟨-, hflags, -⟩ := (h s.flags s rfl).2 a hrun.1
  have hs' : s'.flags = after s.flags := hrun.2 ▸ hflags
  exact (congrArg Flags.lValueGen hs').trans (hafter s.flags hs)

/-- `lValueGen` is clear between the statements of a program: with the flag clear before, it is clear after
the allocas of a function, after every statement and after every expression. -/
structure ASTProgram.LValueGenClear (p : ASTProgram) : Prop where
  prologue : ∀ f ∈ p.functions, LeavesLValueGenClear f.generatePrologue
  stmt : ∀ stmt, .visit (.stmt stmt) ∈ p.accept → LeavesLValueGenClear stmt.generate
  expr : ∀ e, .visit (.expr e) ∈ p.accept → LeavesLValueGenClear e.generate
  function : ∀ f ∈ p.functions, LeavesLValueGenClear f.generate

theorem ASTProgram.weeded {p : ASTProgram} (hc : CheckAssignable.check p = .ok ()) :
    Weeded (fun _ ↦ True) p.accept :=
  fun _ hn ↦ ⟨CheckAssignable.endVisit_of_check hc hn, fun _ _ ↦ trivial⟩

theorem ASTProgram.lValueGenClear {p : ASTProgram} (hc : CheckAssignable.check p = .ok ()) :
    p.LValueGenClear where
  prologue f _ := Enters.leavesLValueGenClear (fun _ ↦ f.enters_generatePrologue) fun _ hb ↦ hb
  stmt stmt hstmt := Enters.leavesLValueGenClear stmt.enters_generate fun _ hb ↦
    (stmt.lValuesScoped ((p.weeded hc).of_subset (p.accept_subset hstmt)) hb).after hb
  expr e he := Enters.leavesLValueGenClear e.enters_generate fun _ hb ↦
    (e.lValuesScopedValue ((p.weeded hc).of_subset (p.accept_subset he)) hb).after hb
  function f hf := by
    have hw : Weeded (fun _ ↦ True) f.accept :=
      (ASTProgram.weeded hc).of_subset fun ev hev ↦ p.mem_accept hf hev
    obtain ⟨hbody, hret⟩ := ASTFunction.weeded_body hw
    refine Enters.leavesLValueGenClear f.enters_generate fun b hb ↦ ?_
    exact (LValuesScoped.append (ASTStmt.lValuesScopedList f.body hbody hb) hb
      (ASTExpr.lValuesScopedValue hret)).after hb

/-- In a weeded program every expression is generated with `lValueGen` set exactly if it is assigned,
updated, iterated over or the operand of `&`, and the flag is clear between the statements. -/
theorem ASTProgram.lValueGen_scoped {p : ASTProgram} (hc : CheckAssignable.check p = .ok ())
    (fields : List String) {s : CodegenState} (hs : s.lValueGen = false) :
    lValues (entered (p.codegen fields s).events) <+: lValues p.scoped ∧
      (∀ m, (p.codegen fields s).ending = .value m →
        lValues (entered (p.codegen fields s).events) = lValues p.scoped ∧
          (p.codegen fields s).state.lValueGen = false) ∧
      p.LValueGenClear := by
  obtain ⟨hpre, hvalue⟩ := p.enters_codegen fields s.flags s rfl
  have hscoped := lValuesScoped_functions p.functions (b := s.flags) (ASTProgram.weeded hc) hs
  have hentries : lValues (functionEntries s.flags p.functions) = lValues p.scoped :=
    hscoped.entries
  refine ⟨hentries ▸ hpre.map _, fun m hm ↦ ?_, p.lValueGenClear hc⟩
  obtain ⟨hentered, hflags, -⟩ := hvalue m hm
  refine ⟨hentered.symm ▸ hentries, ?_⟩
  exact (congrArg Flags.lValueGen hflags).trans (hscoped.after hs)

/-- `main() { var x; x = [1][0]; return &x; }` -/
def assignElementProgram : ASTProgram where
  functions :=
    [⟨0, ⟨1, "main"⟩, [], [⟨2, [⟨3, "x"⟩]⟩],
      [.assignStmt 4 (.variableExpr 5 "x")
        (.indexingExpr 6 (.arrayExpr 7 [.numberExpr 8 1]) (.numberExpr 9 0))],
      ⟨10, .refExpr 11 (.variableExpr 12 "x")⟩, false⟩]
  distinct := by decide

theorem ASTProgram.lValueGen_scoped_assignElement :
    lValues (entered (assignElementProgram.codegen [] CodegenState.initial).events) <+:
      lValues assignElementProgram.scoped :=
  (ASTProgram.lValueGen_scoped (p := assignElementProgram) rfl [] rfl).1

end LValueGen

end Sipc
