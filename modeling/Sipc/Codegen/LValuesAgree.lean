import Sipc.Codegen.LValues
import Sipc.Semantic.Types.TypeInference

/-!
# Agreement on l-values

An address is generated for every expression the program wants the address of (`makes_generate`), and
what is generated is an address exactly if the expression does not name a function. So the weeding
pass and the code generator agree on the programs that assign to no function and take the address of
none (`ASTProgram.lValuesAgree_iff`).
-/

set_option autoImplicit false
set_option relaxedAutoImplicit false

namespace Sipc

open Llvm Library

/-! ### Every address that is wanted is generated -/

/-- Code for the address of the expression was generated. -/
def Addressed (e : ASTExpr) (ev : GenEvent) : Prop :=
  ∃ v, ev = .addressed e v

section Wanted

variable {e : ASTExpr}

theorem wantedIn_append {es es' : List VisitEvent} :
    WantedIn (es ++ es') e ↔ WantedIn es e ∨ WantedIn es' e := by
  unfold WantedIn
  simp only [List.mem_append, or_and_right, exists_or]

theorem wantedIn_visiting {n : ASTNode} {inner : List VisitEvent} :
    WantedIn (visiting n inner) e ↔ n.lValue = some e ∨ WantedIn inner e := by
  unfold WantedIn visiting
  constructor
  · rintro ⟨m, hm, he⟩
    rcases List.mem_cons.1 hm with hm | hm
    · cases hm
    rcases List.mem_append.1 hm with hm | hm
    · exact Or.inr ⟨m, hm, he⟩
    · cases List.mem_singleton.1 hm
      exact Or.inl he
  · rintro (he | ⟨m, hm, he⟩)
    · exact ⟨n, by simp, he⟩
    · exact ⟨m, by simp [hm], he⟩

theorem not_wantedIn_nil : ¬ WantedIn [] e :=
  fun ⟨_, hm, _⟩ ↦ nomatch hm

theorem makes_address (code : Generate Operand) : (address e code).Makes (Addressed e) := by
  unfold address
  refine Run.makes_bind fun _ ↦ Run.makes_bind fun v ↦ Run.makes_bind fun _ ↦ ?_
  exact (Run.makes_emit ⟨v, rfl⟩).bind

theorem makes_address_of {a : ASTExpr} {code : Generate Operand} (h : code.Makes (Addressed e)) :
    (address a code).Makes (Addressed e) := by
  unfold address
  exact Run.makes_bind fun _ ↦ h.bind

mutual

/-- The code of an expression makes the addresses that are wanted inside it. -/
theorem ASTExpr.makes_generate : ∀ a : ASTExpr, WantedIn a.accept e →
    a.generate.Makes (Addressed e)
  | .numberExpr _ _, h | .boolExpr _ _, h | .inputExpr _, h | .nullExpr _, h
  | .variableExpr _ _, h => by
    rcases wantedIn_visiting.1 h with h | h
    · cases h
    · exact absurd h not_wantedIn_nil
  | .binaryExpr _ op l r, h => by
    unfold ASTExpr.generate
    refine Run.makes_bind fun _ ↦ Run.makes_bind fun _ ↦ ?_
    rcases wantedIn_visiting.1 h with h | h
    · cases h
    rcases wantedIn_append.1 h with h | h
    · exact (l.makes_generate h).bind
    · exact Run.makes_bind fun _ ↦ (r.makes_generate h).bind
  | .notExpr _ a, h | .negExpr _ a, h | .arrayLenExpr _ a, h => by
    unfold ASTExpr.generate
    refine Run.makes_bind fun _ ↦ Run.makes_bind fun _ ↦ ?_
    rcases wantedIn_visiting.1 h with h | h
    · cases h
    · exact (a.makes_generate h).bind
  | .funAppExpr _ f as, h => by
    unfold ASTExpr.generate
    refine Run.makes_bind fun _ ↦ Run.makes_bind fun _ ↦ ?_
    rcases wantedIn_visiting.1 h with h | h
    · cases h
    rcases wantedIn_append.1 h with h | h
    · exact (f.makes_generate h).bind
    · refine Run.makes_bind fun _ ↦ Run.makes_bind fun _ ↦ Run.makes_bind fun _ ↦ ?_
      exact (ASTExpr.makes_generateList as h).bind
  | .allocExpr _ a, h => by
    unfold ASTExpr.generate
    refine Run.makes_bind fun _ ↦ Run.makes_bind fun _ ↦ Run.makes_bind fun _ ↦ ?_
    rcases wantedIn_visiting.1 h with h | h
    · cases h
    · exact (a.makes_generate h).bind
  | .refExpr _ a, h => by
    unfold ASTExpr.generate
    refine Run.makes_bind fun _ ↦ Run.makes_bind fun _ ↦ ?_
    rcases wantedIn_visiting.1 h with h | h
    · cases h
      exact (makes_address _).bind
    · exact (makes_address_of (a.makes_generate h)).bind
  | .deRefExpr _ a, h => by
    unfold ASTExpr.generate
    refine Run.makes_bind fun _ ↦ Run.makes_bind fun _ ↦ Run.makes_bind fun _ ↦ ?_
    rcases wantedIn_visiting.1 h with h | h
    · cases h
    · exact (a.makes_generate h).bind
  | .recordExpr _ fs, h => by
    unfold ASTExpr.generate
    refine Run.makes_bind fun _ ↦ Run.makes_bind fun _ ↦ Run.makes_bind fun s ↦ ?_
    rcases wantedIn_visiting.1 h with h | h
    · cases h
    split_ifs
    · refine Run.makes_bind fun _ ↦ Run.makes_bind fun _ ↦ Run.makes_bind fun _ ↦ ?_
      exact Run.makes_bind fun _ ↦ (ASTExpr.makes_generateFields fs _ h).bind
    · exact Run.makes_bind fun _ ↦ (ASTExpr.makes_generateFields fs _ h).bind
  | .accessExpr _ r _, h => by
    unfold ASTExpr.generate
    refine Run.makes_bind fun _ ↦ Run.makes_bind fun _ ↦ Run.makes_bind fun _ ↦ ?_
    refine Run.makes_bind fun _ ↦ Run.makes_bind fun _ ↦ ?_
    rcases wantedIn_visiting.1 h with h | h
    · cases h
    · exact (r.makes_generate h).bind
  | .ternaryExpr _ c t f, h => by
    unfold ASTExpr.generate
    refine Run.makes_bind fun _ ↦ Run.makes_bind fun _ ↦ ?_
    rcases wantedIn_visiting.1 h with h | h
    · cases h
    rcases wantedIn_append.1 h with h | hf
    · rcases wantedIn_append.1 h with hc | ht
      · exact (c.makes_generate hc).bind
      · refine Run.makes_bind fun _ ↦ Run.makes_bind fun _ ↦ Run.makes_bind fun _ ↦ ?_
        refine Run.makes_bind fun _ ↦ Run.makes_bind fun _ ↦ Run.makes_bind fun _ ↦ ?_
        exact (t.makes_generate ht).bind
    · refine Run.makes_bind fun _ ↦ Run.makes_bind fun _ ↦ Run.makes_bind fun _ ↦ ?_
      refine Run.makes_bind fun _ ↦ Run.makes_bind fun _ ↦ Run.makes_bind fun _ ↦ ?_
      refine Run.makes_bind fun _ ↦ Run.makes_bind fun _ ↦ Run.makes_bind fun _ ↦ ?_
      exact Run.makes_bind fun _ ↦ (f.makes_generate hf).bind
  | .arrayExpr _ es, h => by
    unfold ASTExpr.generate
    refine Run.makes_bind fun _ ↦ Run.makes_bind fun _ ↦ ?_
    rcases wantedIn_visiting.1 h with h | h
    · cases h
    refine Run.makes_bind fun _ ↦ Run.makes_bind fun _ ↦ ?_
    exact (ASTExpr.makes_generateElements es _ _ h).bind
  | .arrayOfExpr _ a b, h => by
    unfold ASTExpr.generate
    refine Run.makes_bind fun _ ↦ Run.makes_bind fun _ ↦ ?_
    rcases wantedIn_visiting.1 h with h | h
    · cases h
    rcases wantedIn_append.1 h with ha | hb
    · exact (a.makes_generate ha).bind
    · refine Run.makes_bind fun _ ↦ Run.makes_bind fun _ ↦ Run.makes_bind fun _ ↦ ?_
      refine Run.makes_bind fun _ ↦ Run.makes_bind fun _ ↦ Run.makes_bind fun _ ↦ ?_
      refine Run.makes_bind fun _ ↦ Run.makes_bind fun _ ↦ Run.makes_bind fun _ ↦ ?_
      refine Run.makes_bind fun _ ↦ Run.makes_bind fun _ ↦ Run.makes_bind fun _ ↦ ?_
      refine Run.makes_bind fun _ ↦ Run.makes_bind fun _ ↦ Run.makes_bind fun _ ↦ ?_
      exact (b.makes_generate hb).bind
  | .indexingExpr _ a i, h => by
    unfold ASTExpr.generate
    refine Run.makes_bind fun _ ↦ Run.makes_bind fun _ ↦ Run.makes_bind fun _ ↦ ?_
    rcases wantedIn_visiting.1 h with h | h
    · cases h
    rcases wantedIn_append.1 h with ha | hi
    · exact (a.makes_generate ha).bind
    · refine Run.makes_bind fun _ ↦ Run.makes_bind fun _ ↦ Run.makes_bind fun _ ↦ ?_
      exact (i.makes_generate hi).bind

theorem ASTExpr.makes_generateList : ∀ es : List ASTExpr, WantedIn (ASTExpr.acceptList es) e →
    (ASTExpr.generateList es).Makes (Addressed e)
  | [], h => absurd h not_wantedIn_nil
  | a :: es, h => by
    unfold ASTExpr.generateList
    rcases wantedIn_append.1 h with ha | hes
    · exact (a.makes_generate ha).bind
    · exact Run.makes_bind fun _ ↦ (ASTExpr.makes_generateList es hes).bind

theorem ASTExpr.makes_generateElements : ∀ (es : List ASTExpr) (ptr : Operand) (i : ℕ),
    WantedIn (ASTExpr.acceptList es) e → (ASTExpr.generateElements ptr i es).Makes (Addressed e)
  | [], _, _, h => absurd h not_wantedIn_nil
  | a :: es, ptr, i, h => by
    unfold ASTExpr.generateElements
    rcases wantedIn_append.1 h with ha | hes
    · exact (a.makes_generate ha).bind
    · refine Run.makes_bind fun _ ↦ Run.makes_bind fun _ ↦ Run.makes_bind fun _ ↦ ?_
      exact ASTExpr.makes_generateElements es ptr (i + 1) hes

theorem ASTExpr.makes_generateFields : ∀ (fs : List ASTFieldExpr) (record : Operand),
    WantedIn (ASTExpr.acceptFields fs) e → (ASTExpr.generateFields record fs).Makes (Addressed e)
  | [], _, h => absurd h not_wantedIn_nil
  | .mk _ _ a :: fs, record, h => by
    unfold ASTExpr.generateFields
    refine Run.makes_bind fun _ ↦ Run.makes_bind fun _ ↦ ?_
    rcases wantedIn_append.1 h with ha | hfs
    · rcases wantedIn_visiting.1 ha with ha | ha
      · cases ha
      · exact (a.makes_generate ha).bind
    · exact Run.makes_bind fun _ ↦ Run.makes_bind fun _ ↦ ASTExpr.makes_generateFields fs record hfs

end

theorem makes_generateRange {rangeStart rangeEnd : ASTExpr} {increment : Option ASTExpr}
    (h : WantedIn (ForDomain.range rangeStart rangeEnd increment).accept e) :
    (generateRange rangeStart rangeEnd increment).Makes (Addressed e) := by
  unfold generateRange
  cases increment with
  | none =>
    rcases wantedIn_append.1 h with h | h
    · exact (ASTExpr.makes_generate rangeStart h).bind
    · exact Run.makes_bind fun _ ↦ (ASTExpr.makes_generate rangeEnd h).bind
  | some i =>
    rcases wantedIn_append.1 h with h | h
    · rcases wantedIn_append.1 h with h | h
      · exact (ASTExpr.makes_generate rangeStart h).bind
      · exact Run.makes_bind fun _ ↦ (ASTExpr.makes_generate rangeEnd h).bind
    · exact Run.makes_bind fun _ ↦ Run.makes_bind fun _ ↦ (ASTExpr.makes_generate i h).bind

mutual

/-- The code of a statement makes the addresses that are wanted inside it. -/
theorem ASTStmt.makes_generate : ∀ s : ASTStmt, WantedIn s.accept e →
    s.generate.Makes (Addressed e)
  | .assignStmt _ l r, h => by
    unfold ASTStmt.generate
    rcases wantedIn_visiting.1 h with h | h
    · cases h
      exact (makes_address _).bind
    rcases wantedIn_append.1 h with h | h
    · exact (makes_address_of (ASTExpr.makes_generate l h)).bind
    · exact Run.makes_bind fun _ ↦ (ASTExpr.makes_generate r h).bind
  | .updateStmt _ a _, h => by
    unfold ASTStmt.generate
    rcases wantedIn_visiting.1 h with h | h
    · cases h
      exact (makes_address _).bind
    · exact (makes_address_of (ASTExpr.makes_generate a h)).bind
  | .blockStmt _ [], h => by
    rcases wantedIn_visiting.1 h with h | h
    · cases h
    · exact absurd h not_wantedIn_nil
  | .blockStmt _ (s :: ss), h => by
    unfold ASTStmt.generate
    rcases wantedIn_visiting.1 h with h | h
    · cases h
    rcases wantedIn_append.1 h with h | h
    · exact (s.makes_generate h).bind
    · exact Run.makes_bind fun _ ↦ ASTStmt.makes_generateList ss h
  | .whileStmt _ c body, h => by
    unfold ASTStmt.generate
    refine Run.makes_bind fun _ ↦ Run.makes_bind fun _ ↦ Run.makes_bind fun _ ↦ ?_
    refine Run.makes_bind fun _ ↦ Run.makes_bind fun _ ↦ ?_
    rcases wantedIn_visiting.1 h with h | h
    · cases h
    rcases wantedIn_append.1 h with h | h
    · exact (ASTExpr.makes_generate c h).bind
    · refine Run.makes_bind fun _ ↦ Run.makes_bind fun _ ↦ Run.makes_bind fun _ ↦ ?_
      exact (body.makes_generate h).bind
  | .forStmt _ item (.range rangeStart rangeEnd increment) body, h => by
    unfold ASTStmt.generate
    refine Run.makes_bind fun _ ↦ Run.makes_bind fun _ ↦ Run.makes_bind fun _ ↦ ?_
    rcases wantedIn_visiting.1 h with h | h
    · cases h
      exact (makes_address _).bind
    rcases wantedIn_append.1 h with h | hbody
    · rcases wantedIn_append.1 h with h | h
      · exact (makes_address_of (ASTExpr.makes_generate item h)).bind
      · exact Run.makes_bind fun _ ↦ (makes_generateRange h).bind
    · refine Run.makes_bind fun _ ↦ Run.makes_bind fun range ↦ ?_
      obtain ⟨startV, endV, incrementV⟩ := range
      refine Run.makes_bind fun _ ↦ Run.makes_bind fun _ ↦ Run.makes_bind fun _ ↦ ?_
      refine Run.makes_bind fun _ ↦ Run.makes_bind fun _ ↦ Run.makes_bind fun _ ↦ ?_
      exact Run.makes_bind fun _ ↦ (body.makes_generate hbody).bind
  | .forStmt _ item (.iterator iterator) body, h => by
    unfold ASTStmt.generate
    refine Run.makes_bind fun _ ↦ Run.makes_bind fun _ ↦ Run.makes_bind fun _ ↦ ?_
    rcases wantedIn_visiting.1 h with h | h
    · cases h
      exact (makes_address _).bind
    rcases wantedIn_append.1 h with h | hbody
    · rcases wantedIn_append.1 h with h | h
      · exact (makes_address_of (ASTExpr.makes_generate item h)).bind
      · exact Run.makes_bind fun _ ↦ (ASTExpr.makes_generate iterator h).bind
    · refine Run.makes_bind fun _ ↦ Run.makes_bind fun _ ↦ Run.makes_bind fun _ ↦ ?_
      refine Run.makes_bind fun _ ↦ Run.makes_bind fun _ ↦ Run.makes_bind fun _ ↦ ?_
      refine Run.makes_bind fun _ ↦ Run.makes_bind fun _ ↦ Run.makes_bind fun _ ↦ ?_
      refine Run.makes_bind fun _ ↦ Run.makes_bind fun _ ↦ Run.makes_bind fun _ ↦ ?_
      refine Run.makes_bind fun _ ↦ Run.makes_bind fun _ ↦ Run.makes_bind fun _ ↦ ?_
      exact Run.makes_bind fun _ ↦ (body.makes_generate hbody).bind
  | .ifStmt _ c t none, h => by
    unfold ASTStmt.generate
    rcases wantedIn_visiting.1 h with h | h
    · cases h
    rcases wantedIn_append.1 h with h | h
    · exact (ASTExpr.makes_generate c h).bind
    · refine Run.makes_bind fun _ ↦ Run.makes_bind fun _ ↦ Run.makes_bind fun _ ↦ ?_
      refine Run.makes_bind fun _ ↦ Run.makes_bind fun _ ↦ Run.makes_bind fun _ ↦ ?_
      exact (t.makes_generate h).bind
  | .ifStmt _ c t (some f), h => by
    unfold ASTStmt.generate
    rcases wantedIn_visiting.1 h with h | h
    · cases h
    rcases wantedIn_append.1 h with h | hf
    · rcases wantedIn_append.1 h with h | h
      · exact (ASTExpr.makes_generate c h).bind
      · refine Run.makes_bind fun _ ↦ Run.makes_bind fun _ ↦ Run.makes_bind fun _ ↦ ?_
        refine Run.makes_bind fun _ ↦ Run.makes_bind fun _ ↦ Run.makes_bind fun _ ↦ ?_
        exact (t.makes_generate h).bind
    · refine Run.makes_bind fun _ ↦ Run.makes_bind fun _ ↦ Run.makes_bind fun _ ↦ ?_
      refine Run.makes_bind fun _ ↦ Run.makes_bind fun _ ↦ Run.makes_bind fun _ ↦ ?_
      refine Run.makes_bind fun _ ↦ Run.makes_bind fun _ ↦ Run.makes_bind fun _ ↦ ?_
      unfold ASTStmt.generateElse
      exact (f.makes_generate hf).bind
  | .outputStmt _ a, h | .errorStmt _ a, h => by
    unfold ASTStmt.generate
    rcases wantedIn_visiting.1 h with h | h
    · cases h
    · exact Run.makes_bind fun _ ↦ (ASTExpr.makes_generate a h).bind

theorem ASTStmt.makes_generateList : ∀ ss : List ASTStmt, WantedIn (ASTStmt.acceptList ss) e →
    (ASTStmt.generateList ss).Makes (Addressed e)
  | [], h => absurd h not_wantedIn_nil
  | s :: ss, h => by
    unfold ASTStmt.generateList
    rcases wantedIn_append.1 h with h | h
    · exact (s.makes_generate h).bind
    · exact Run.makes_bind fun _ ↦ ASTStmt.makes_generateList ss h

end

theorem not_wantedIn_decls {ds : List ASTDeclNode} :
    ¬ WantedIn (ds.flatMap ASTDeclNode.accept) e := by
  rintro ⟨n, hn, he⟩
  obtain ⟨d, -, hd⟩ := List.mem_flatMap.1 hn
  rcases wantedIn_visiting.1 (⟨n, hd, he⟩ : WantedIn d.accept e) with h | h
  · cases h
  · exact not_wantedIn_nil h

theorem not_wantedIn_declStmts {ss : List ASTDeclStmt} :
    ¬ WantedIn (ss.flatMap ASTDeclStmt.accept) e := by
  rintro ⟨n, hn, he⟩
  obtain ⟨s, -, hs⟩ := List.mem_flatMap.1 hn
  rcases wantedIn_visiting.1 (⟨n, hs, he⟩ : WantedIn s.accept e) with h | h
  · cases h
  · exact not_wantedIn_decls h

/-- Addresses are wanted in the statements and in the result of a function. -/
theorem ASTFunction.makes_generate {f : ASTFunction} (h : WantedIn f.accept e) :
    f.generate.Makes (Addressed e) := by
  unfold ASTFunction.generate
  rcases wantedIn_visiting.1 h with h | h
  · cases h
  rcases wantedIn_append.1 h with h | h
  · rcases wantedIn_append.1 h with h | h
    · rcases wantedIn_append.1 h with h | h
      · rcases wantedIn_append.1 h with h | h
        · exact absurd (show WantedIn ([f.decl].flatMap ASTDeclNode.accept) e by simpa using h)
            not_wantedIn_decls
        · exact absurd h not_wantedIn_decls
      · exact absurd h not_wantedIn_declStmts
    · exact Run.makes_bind fun _ ↦ (ASTStmt.makes_generateList f.body h).bind
  · rcases wantedIn_visiting.1 h with h | h
    · cases h
    · exact Run.makes_bind fun _ ↦ Run.makes_bind fun _ ↦ (ASTExpr.makes_generate f.ret.arg h).bind

theorem ASTProgram.makes_codegen {p : ASTProgram} (fields : List String)
    (h : WantedIn p.accept e) : (p.codegen fields).Makes (Addressed e) := by
  obtain ⟨n, hn, he⟩ := h
  obtain ⟨f, hf, hn⟩ := List.mem_flatMap.1 hn
  unfold ASTProgram.codegen
  exact Run.makes_bind fun _ ↦
    (Run.makes_forM (ASTFunction.makes_generate ⟨n, hn, he⟩) hf).bind

end Wanted

/-! ### The two passes -/

/-- The compilation of a program by itself. -/
def ASTProgram.compilation (p : ASTProgram) (st : SymbolTable) :
    Execution CodegenState GenEvent InternalError Module :=
  p.codegen st.getFields CodegenState.initial

/-- For every expression whose address is wanted the code generator produces an address, and every
instruction that needs a pointer gets one. -/
def ASTProgram.LValuesAgree (p : ASTProgram) (st : SymbolTable) : Prop :=
  (∀ e v, .addressed e v ∈ (p.compilation st).events → v.kind.IsAddress) ∧
    ∀ m, (p.compilation st).ending = .value m → ∀ i ∈ m.instructions, i.WellFormed

/-- An assigned, updated or iterated variable or an operand of `&` does not name a function. -/
def ASTProgram.AddressesNoFunction (p : ASTProgram) (st : SymbolTable) : Prop :=
  ∀ e, WantedIn p.accept e → ¬ e.NamesFunction fun x ↦ (st.getFunction x).isSome

section Agree

variable {p : ASTProgram} {st : SymbolTable}

/-- The tables of the code generator agree with the symbol table. -/
theorem ASTProgram.keeps_compilation (hb : SymbolTable.build p = .ok st)
    (hc : CheckAssignable.check p = .ok ()) (strict : Prop) :
    Keeps (fun x ↦ (st.getFunction x).isSome) (WantedIn p.accept) strict false
        (p.codegen st.getFields) false (fun m ↦ strict → ∀ i ∈ m.instructions, i.WellFormed) ∧
      (lValueGuarantee (fun x ↦ (st.getFunction x).isSome) (WantedIn p.accept) strict).inv ⟨false⟩
        CodegenState.initial := by
  have h := SymbolTable.build_spec hb
  have hnames : ∀ f ∈ p.functions, (st.getFunction f.name).isSome := fun f hf ↦ by
    rw [h.getFunction f hf]
    rfl
  have hlocals : ∀ f ∈ p.functions, ∀ d ∈ f.localDecls, ¬ (st.getFunction d.name).isSome :=
    fun f hf d hd ↦ by simp [h.local_not_function f hf d hd]
  refine ⟨p.keeps_codegen st.getFields (fun n hn ↦ ⟨CheckAssignable.endVisit_of_check hc hn,
    fun e he ↦ ⟨n, hn, he⟩⟩) hnames hlocals, rfl, ?_⟩
  exact { index := fun hx ↦ (nomatch hx), named := fun hx ↦ (nomatch hx)
          formals := fun _ _ hx ↦ (nomatch hx), args := fun _ hF ↦ (nomatch hF)
          calloc := fun hx ↦ (nomatch hx), wellFormed := fun _ _ hi ↦ (nomatch hi) }

/-- What is generated for an expression whose address is wanted. -/
theorem ASTProgram.isAddress_iff (hb : SymbolTable.build p = .ok st)
    (hc : CheckAssignable.check p = .ok ()) {e : ASTExpr} {v : Operand}
    (hev : .addressed e v ∈ (p.compilation st).events) :
    WantedIn p.accept e ∧
      (v.kind.IsAddress ↔ ¬ e.NamesFunction fun x ↦ (st.getFunction x).isSome) := by
  obtain ⟨hkeeps, hinit⟩ := p.keeps_compilation hb hc False
  refine (hkeeps _ hinit ?_).1 _ hev
  intro ev _
  cases ev with
  | addressed e' v' => exact False.elim
  | entered e' l a => trivial

/-- Where no address of a function is wanted, the module is well formed. -/
theorem ASTProgram.wellFormed_compilation (hb : SymbolTable.build p = .ok st)
    (hc : CheckAssignable.check p = .ok ())
    (hgood : ∀ e v, .addressed e v ∈ (p.compilation st).events →
      ¬ e.NamesFunction fun x ↦ (st.getFunction x).isSome) {m : Module}
    (hm : (p.compilation st).ending = .value m) : ∀ i ∈ m.instructions, i.WellFormed := by
  obtain ⟨hkeeps, hinit⟩ := p.keeps_compilation hb hc True
  have hend := (hkeeps _ hinit (by
    intro ev hev
    cases ev with
    | addressed e' v' => exact fun _ ↦ hgood e' v' hev
    | entered e' l a => trivial)).2
  unfold ASTProgram.compilation at hm
  rw [hm] at hend
  obtain ⟨w, -, -, -, hwf⟩ := hend
  exact hwf trivial

/-- What is generated for an expression whose address is wanted is an address exactly if the
expression does not name a function. So the passes agree on a program that wants the address of no
function, and on a program that is compiled to the end they agree only then. -/
theorem ASTProgram.lValuesAgree_iff (hb : SymbolTable.build p = .ok st)
    (hc : CheckAssignable.check p = .ok ()) :
    (∀ e v, .addressed e v ∈ (p.compilation st).events →
      (v.kind.IsAddress ↔ ¬ e.NamesFunction fun x ↦ (st.getFunction x).isSome)) ∧
    (p.AddressesNoFunction st → p.LValuesAgree st) ∧
    ∀ m, (p.compilation st).ending = .value m → (p.LValuesAgree st ↔ p.AddressesNoFunction st) := by
  have hsufficient : p.AddressesNoFunction st → p.LValuesAgree st := fun hgood ↦
    ⟨fun e v hev ↦ (p.isAddress_iff hb hc hev).2.2 (hgood e (p.isAddress_iff hb hc hev).1),
      fun _ hm ↦ p.wellFormed_compilation hb hc
        (fun e v hev ↦ hgood e (p.isAddress_iff hb hc hev).1) hm⟩
  refine ⟨fun e v hev ↦ (p.isAddress_iff hb hc hev).2, hsufficient, fun m hm ↦
    ⟨fun hagree e he ↦ ?_, hsufficient⟩⟩
  obtain ⟨ev, hev, v, rfl⟩ := p.makes_codegen st.getFields he _ m hm
  exact (p.isAddress_iff hb hc hev).2.1 (hagree.1 e v hev)

/-- `main() { var x; x = 1; return x; }` -/
def assignLocalProgram : ASTProgram where
  functions :=
    [⟨0, ⟨1, "main"⟩, [], [⟨2, [⟨3, "x"⟩]⟩],
      [.assignStmt 4 (.variableExpr 5 "x") (.numberExpr 6 1)], ⟨7, .variableExpr 8 "x"⟩, false⟩]
  distinct := by decide

theorem ASTProgram.lValuesAgree_iff_assignLocal :
    ∃ st, SymbolTable.build assignLocalProgram = .ok st ∧
      (assignLocalProgram.AddressesNoFunction st → assignLocalProgram.LValuesAgree st) := by
  refine ⟨_, rfl, ?_⟩
  exact (ASTProgram.lValuesAgree_iff (p := assignLocalProgram) rfl rfl).2.1

/-- `main() { main = main; return 0; }` -/
def assignMainProgram : ASTProgram where
  functions :=
    [⟨0, ⟨1, "main"⟩, [], [], [.assignStmt 2 (.variableExpr 3 "main") (.variableExpr 4 "main")],
      ⟨5, .numberExpr 6 0⟩, false⟩]
  distinct := by decide

/-- Assigning to a function passes every check, and is compiled to a store to an integer. -/
theorem not_lValuesAgree_assignMain :
    ∃ st, SymbolTable.build assignMainProgram = .ok st ∧
      CheckAssignable.check assignMainProgram = .ok () ∧ assignMainProgram.AcceptedMono st ∧
      ¬ assignMainProgram.LValuesAgree st := by
  refine ⟨_, rfl, rfl, ⟨.creation, 0, _, rfl⟩, fun h ↦ ?_⟩
  exact h.1 (.variableExpr 3 "main") (.const 0) (List.mem_of_getElem? (i := 1) rfl)

end Agree

end Sipc
