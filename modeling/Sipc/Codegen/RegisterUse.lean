import Sipc.Codegen.ModuleExecution
import Sipc.Codegen.SsaFunctions

/-!
# Registers are set before they are used

In `Process.step` a register of a new activation holds anything. In a module whose functions are in
static single assignment form no run depends on that: two processes that agree on the registers of the
instructions that control has passed stay in step (`Process.Alike`, `Process.Alike.step`). So the runs of
a compiled program are the same whatever the registers hold at first (`ASTProgram.runsAlike_of_codegen`).
-/

set_option autoImplicit false
set_option relaxedAutoImplicit false

namespace Sipc.Llvm

open Library Machine

/-! ### Activations -/

/-- The results of the instructions that control has passed, on the way through the blocks `p` and in
the block where it is. -/
def Activation.passed (m : Module) (p : List ℕ) (a : Activation) : Set Operand :=
  {v | (∃ l ∈ p, v ∈ instructionSet.results (blockAt (m.code a.function) l)) ∨
    v ∈ instructionSet.results ((blockAt (m.code a.function) a.block).take a.position)}

/-- The activations differ at most in registers that control has not passed, and in those of `X`. -/
def Activation.Alike (m : Module) (X : Set ℕ) (a a' : Activation) : Prop :=
  ∃ r p, a' = { a with registers := r } ∧ instructionSet.Walk (m.code a.function) (a.block :: p) ∧
    (∀ l q, p = l :: q → a.previous = l) ∧
    ∀ id k, id ∉ X → .result id k ∈ a.passed m p → r id = a.registers id

/-- The processes differ at most in registers that control has not passed. A caller waits for the
register of its call. -/
structure Process.Alike (m : Module) (c c' : Process) : Prop where
  top : c.top.Alike m ∅ c'.top
  callers : List.Forall₂ (fun x x' ↦ x'.1 = x.1 ∧ x.2.Alike m {x.1} x'.2) c.callers c'.callers
  memory : c'.memory = c.memory
  input : c'.input = c.input
  output : c'.output = c.output

section Activations

variable {m : Module} {a a' : Activation} {id : ℕ} {i : Instruction}

/-- The instruction that the activation executes next. -/
def Activation.IsAt (m : Module) (a : Activation) (id : ℕ) (i : Instruction) : Prop :=
  (blockAt (m.code a.function) a.block)[a.position]? = some (id, i)

/-- The function that is running, with the code around the instruction. -/
theorem Activation.IsAt.exists_code (h : a.IsAt m id i) :
    ∃ f ∈ m.functions, m.code a.function = f.blocks ∧ blockAt f.blocks a.block ∈ f.blocks ∧
      blockAt f.blocks a.block = (blockAt f.blocks a.block).take a.position ++
        (id, i) :: (blockAt f.blocks a.block).drop (a.position + 1) := by
  unfold IsAt at h
  cases hf : m.functions[a.function]? with
  | none =>
    have hcode : m.code a.function = [] := by simp [Module.code, hf]
    rw [hcode, blockAt_eq_nil (Nat.zero_le _)] at h
    cases h
  | some f =>
    have hcode : m.code a.function = f.blocks := by simp [Module.code, hf]
    rw [hcode] at h
    obtain ⟨hlt, hget⟩ := List.getElem?_eq_some_iff.1 h
    refine ⟨f, List.mem_of_getElem? hf, hcode, blockAt_mem ?_, ?_⟩
    · by_contra hle
      rw [blockAt_eq_nil (Nat.le_of_not_lt hle)] at hlt
      exact absurd hlt (Nat.not_lt_zero _)
    · rw [← hget, ← List.drop_eq_getElem_cons hlt, List.take_append_drop]

theorem Activation.IsAt.passed_finish (h : a.IsAt m id i) {p : List ℕ} {v : Operand}
    {r : ℕ → Datum}
    (hv : v ∈ Activation.passed m p { a with position := a.position + 1, registers := r }) :
    v ∈ a.passed m p ∨ v = .result id i.kind := by
  rcases hv with hv | ⟨x, hx, rfl⟩
  · exact .inl (.inl hv)
  · rw [List.take_add_one, List.mem_append, h] at hx
    rcases hx with hx | hx
    · exact .inl (.inr (InstructionSet.mem_results hx))
    · obtain rfl := List.mem_singleton.1 hx
      exact .inr rfl

/-- The terminator is the last instruction of its block. -/
theorem Activation.IsAt.passed_goto (hm : ∀ f ∈ m.functions, f.IsSsa) (h : a.IsAt m id i)
    (hi : i.role.isTerminator = true) {p : List ℕ} {l : ℕ} {v : Operand} {r : ℕ → Datum} {b : ℕ}
    (hv : v ∈ Activation.passed m (a.block :: p)
      { a with block := l, position := 0, previous := b, registers := r }) :
    v ∈ a.passed m p ∨ v = .result id i.kind := by
  obtain ⟨f, hf, hcode, hmem, hblock⟩ := h.exists_code
  rcases hv with ⟨l', hl', hv⟩ | ⟨x, hx, -⟩
  · rcases List.mem_cons.1 hl' with rfl | hl'
    · obtain ⟨x, hx, rfl⟩ := hv
      obtain ⟨body, last, hbody, -, hplain⟩ := (hm f hf).closed _ hmem
      -- nothing comes after the terminator
      have hlast : (blockAt f.blocks a.block).drop (a.position + 1) = [] := by
        by_contra hne
        have hwhole := hbody.symm.trans hblock
        rw [← List.dropLast_append_getLast hne, ← List.cons_append, ← List.append_assoc] at hwhole
        have hinit := (List.append_inj' hwhole rfl).1
        have hterm := hplain (id, i) (hinit ▸ List.mem_append_right _ List.mem_cons_self)
        exact absurd (hi.symm.trans hterm) (by decide)
      change x ∈ blockAt (m.code a.function) a.block at hx
      rw [hcode, hblock, hlast] at hx
      rcases List.mem_append.1 hx with hx | hx
      · refine .inl (.inr ?_)
        rw [hcode]
        exact InstructionSet.mem_results hx
      · obtain rfl := List.mem_singleton.1 hx
        exact .inr rfl
    · exact .inl (.inl ⟨l', hl', hv⟩)
  · cases hx

theorem update_congr {r r' : ℕ → Datum} {k : ℕ} (d : Datum) (h : k ≠ id → r k = r' k) :
    Function.update r id d k = Function.update r' id d k := by
  by_cases heq : k = id
  · rw [heq, Function.update_self, Function.update_self]
  · rw [Function.update_of_ne heq, Function.update_of_ne heq, h heq]

/-- The register of the instruction is set, and control goes on behind it. -/
theorem Activation.Alike.finish (h : a.Alike m ∅ a') (hat : a.IsAt m id i) (d : Datum) :
    Activation.Alike m ∅
      { a with position := a.position + 1, registers := Function.update a.registers id d }
      { a' with position := a'.position + 1, registers := Function.update a'.registers id d } := by
  obtain ⟨r, p, rfl, hwalk, hprevious, hr⟩ := h
  refine ⟨Function.update r id d, p, rfl, hwalk, hprevious, fun id' k hX hv ↦ ?_⟩
  refine update_congr d fun hne ↦ ?_
  rcases hat.passed_finish hv with hv | hv
  · exact hr id' k hX hv
  · exact absurd (Operand.result.inj hv).1 hne

/-- The activation waits for the result of a call. -/
theorem Activation.Alike.wait (h : a.Alike m ∅ a') (hat : a.IsAt m id i) :
    Activation.Alike m {id} { a with position := a.position + 1 }
      { a' with position := a'.position + 1 } := by
  obtain ⟨r, p, rfl, hwalk, hprevious, hr⟩ := h
  refine ⟨r, p, rfl, hwalk, hprevious, fun id' k hX hv ↦ ?_⟩
  rcases hat.passed_finish (r := a.registers) hv with hv | hv
  · exact hr id' k (Set.notMem_empty id') hv
  · exact absurd (Operand.result.inj hv).1 hX

/-- The result of the call is there. -/
theorem Activation.Alike.resume (h : a.Alike m {id} a') (d : Datum) :
    Activation.Alike m ∅ { a with registers := Function.update a.registers id d }
      { a' with registers := Function.update a'.registers id d } := by
  obtain ⟨r, p, rfl, hwalk, hprevious, hr⟩ := h
  exact ⟨Function.update r id d, p, rfl, hwalk, hprevious, fun id' k _ hv ↦
    update_congr d fun hne ↦ hr id' k hne hv⟩

/-- Control goes on at the start of another block. -/
theorem Activation.Alike.goto (hm : ∀ f ∈ m.functions, f.IsSsa) (h : a.Alike m ∅ a')
    (hat : a.IsAt m id i) {l : ℕ} (hi : i.role.isTerminator = true) (hl : l ∈ i.role.targets)
    (d : Datum) :
    Activation.Alike m ∅
      { a with
        block := l
        position := 0
        previous := a.block
        registers := Function.update a.registers id d }
      { a' with
        block := l
        position := 0
        previous := a'.block
        registers := Function.update a'.registers id d } := by
  obtain ⟨r, p, rfl, hwalk, -, hr⟩ := h
  have hjump : 0 < instructionSet.jumps (m.code a.function) a.block l := by
    refine List.count_pos_iff.2 (List.mem_flatMap.2 ⟨(id, i), List.mem_of_getElem? hat, hl⟩)
  refine ⟨Function.update r id d, a.block :: p, rfl, hwalk.jump hjump, ?_, fun id' k hX hv ↦ ?_⟩
  · intro l' q hq
    exact (List.cons.inj hq).1
  · refine update_congr d fun hne ↦ ?_
    rcases hat.passed_goto hm hi hv with hv | hv
    · exact hr id' k hX hv
    · exact absurd (Operand.result.inj hv).1 hne

/-- An activation starts in the entry block, where control has passed nothing. -/
theorem Activation.alike_enter (m : Module) (k : ℕ) (args : List Datum) (unset unset' : ℕ → Datum) :
    Activation.Alike m ∅ ⟨k, 0, 0, 0, args, unset, []⟩ ⟨k, 0, 0, 0, args, unset', []⟩ := by
  refine ⟨unset', [], rfl, .entry, ?_, ?_⟩
  · intro l q hq
    cases hq
  · rintro id k - (⟨l, hl, -⟩ | ⟨x, hx, -⟩)
    · cases hl
    · cases hx

end Activations

/-! ### Operands -/

section Operands

variable {m : Module} {c c' : Process} {id : ℕ} {i : Instruction}

theorem Process.Alike.operand_eq (h : c.Alike m c') {v : Operand}
    (hv : ∀ r p, c'.top = { c.top with registers := r } →
      instructionSet.Walk (m.code c.top.function) (c.top.block :: p) →
      (∀ l q, p = l :: q → c.top.previous = l) → ∀ id k, v = .result id k → v ∈ c.top.passed m p) :
    c'.operand v = c.operand v := by
  obtain ⟨r, p, htop, hwalk, hprevious, hr⟩ := h.top
  cases v with
  | const w => rfl
  | null => rfl
  | arg k =>
    unfold Process.operand
    rw [htop]
  | result id k =>
    unfold Process.operand
    rw [htop]
    exact hr id k (Set.notMem_empty id) (hv r p htop hwalk hprevious id k rfl)

/-- What an instruction uses is set. -/
theorem Process.Alike.operand (hm : ∀ f ∈ m.functions, f.IsSsa) (h : c.Alike m c')
    (hat : c.top.IsAt m id i) {v : Operand} (hv : v ∈ i.role.operands) :
    c'.operand v = c.operand v := by
  refine h.operand_eq fun r p _ hwalk _ id' k hres ↦ ?_
  obtain ⟨f, hf, hcode, -, hblock⟩ := hat.exists_code
  unfold Activation.passed
  rw [hcode] at hwalk ⊢
  rcases (hm f hf).defined _ p hwalk _ (id, i) _ hblock v hv with (hgiven | hv) | hv
  · rw [hres] at hgiven
    exact hgiven.elim
  · exact .inl hv
  · exact .inr hv

/-- What a phi takes for the block that control came from is set. -/
theorem Process.Alike.incoming (hm : ∀ f ∈ m.functions, f.IsSsa) (h : c.Alike m c')
    {incoming : List (Operand × IR.Label)} (hat : c.top.IsAt m id (.phi incoming)) {v : Operand}
    (hv : (v, c.top.previous) ∈ incoming) : c'.operand v = c.operand v := by
  refine h.operand_eq fun r p _ hwalk hprevious id' k hres ↦ ?_
  obtain ⟨f, hf, hcode, -, hblock⟩ := hat.exists_code
  have hmem : (id, .phi incoming) ∈ blockAt f.blocks c.top.block := by
    rw [hblock]
    exact List.mem_append_right _ List.mem_cons_self
  unfold Activation.passed
  rw [hcode] at hwalk ⊢
  cases p with
  | nil =>
    -- control never comes to the entry block by a jump
    have hentry := hwalk.eq_entry
    have hcount := (hm f hf).incoming _ _ hmem rfl c.top.previous
    have hpos : 0 < instructionSet.jumps f.blocks c.top.previous c.top.block := by
      rw [← hcount]
      exact List.count_pos_iff.2 (List.mem_map.2 ⟨(v, c.top.previous), hv, rfl⟩)
    rw [hentry] at hpos
    exact absurd ((hm f hf).targets _ _ hpos).1 (lt_irrefl 0)
  | cons l q =>
    rw [hprevious l q rfl] at hv
    rcases (hm f hf).phiDefined _ _ hmem v l hv q hwalk.tail with hgiven | hv
    · rw [hres] at hgiven
      exact hgiven.elim
    · exact .inl hv

/-- What an instruction computes is the same. -/
theorem Process.Alike.compute (hm : ∀ f ∈ m.functions, f.IsSsa) (h : c.Alike m c')
    (hat : c.top.IsAt m id i) : c'.compute i = c.compute i := by
  have hop (v : Operand) (hv : v ∈ i.role.operands) := h.operand hm hat hv
  cases i with
  | phi incoming =>
    have hprevious : c'.top.previous = c.top.previous := by
      obtain ⟨r, -, htop, -⟩ := h.top
      rw [htop]
    unfold Process.compute
    dsimp only
    rw [hprevious]
    cases hfind : incoming.find? fun p ↦ p.2 = c.top.previous with
    | none => rfl
    | some p =>
      have hp : p.2 = c.top.previous := by simpa using List.find?_some hfind
      have hv : (p.1, c.top.previous) ∈ incoming := hp ▸ List.mem_of_find?_eq_some hfind
      exact congrArg some (h.incoming hm hat hv)
  | binary op l r | icmp op l r | elementPtr l r =>
    unfold Process.compute
    dsimp only
    rw [hop l List.mem_cons_self, hop r (List.mem_cons_of_mem _ List.mem_cons_self)]
  | zext v | intToPtr v | ptrToInt v | fieldPtr v n | functionTablePtr v =>
    unfold Process.compute
    dsimp only
    rw [hop v List.mem_cons_self]
  | _ => rfl

end Operands

/-! ### Steps -/

namespace Process.Alike

variable {m : Module} {c c' : Process} {id : ℕ} {i : Instruction}

theorem finish (h : c.Alike m c') (hat : c.top.IsAt m id i) (d : Datum) :
    (c.finish id d).Alike m (c'.finish id d) :=
  { h with top := h.top.finish hat d }

theorem goto (hm : ∀ f ∈ m.functions, f.IsSsa) (h : c.Alike m c') (hat : c.top.IsAt m id i) {l : ℕ}
    (hi : i.role.isTerminator = true) (hl : l ∈ i.role.targets) :
    (c.goto id l).Alike m (c'.goto id l) :=
  { h with top := h.top.goto hm hat hi hl .undefined }

theorem load (h : c.Alike m c') (hat : c.top.IsAt m id i) (d : Datum) :
    (c.load id d).Alike (Process.Alike m) (c'.load id d) := by
  cases d with
  | address b o =>
    unfold Process.load
    dsimp only
    rw [h.memory, h.output]
    split_ifs
    · exact .halt _
    · cases wordAt c.memory b o with
      | none => exact .stuck
      | some d => exact .next (h.finish hat d)
  | _ => exact .stuck

theorem store (h : c.Alike m c') (hat : c.top.IsAt m id i) (d p : Datum) :
    (c.store id d p).Alike (Process.Alike m) (c'.store id d p) := by
  cases p with
  | address b o =>
    unfold Process.store
    dsimp only
    rw [h.memory, h.output]
    split_ifs
    · exact .halt _
    · have hstored : Process.Alike m { c with memory := setWord c.memory b o d }
          { c' with memory := setWord c.memory b o d, output := c.output } :=
        ⟨h.top, h.callers, rfl, h.input, rfl⟩
      exact .next (hstored.finish hat .undefined)
    · exact .stuck
  | _ => exact .stuck

theorem allocate (h : c.Alike m c') (hat : c.top.IsAt m id i) (words : List Datum) :
    (c.allocate id words).Alike m (c'.allocate id words) := by
  have hadded : Process.Alike m { c with memory := c.memory ++ [⟨words, true⟩] }
      { c' with memory := c.memory ++ [⟨words, true⟩] } :=
    ⟨h.top, h.callers, rfl, h.input, h.output⟩
  unfold Process.allocate
  rw [h.memory]
  exact hadded.finish hat _

theorem runtime (h : c.Alike m c') (hat : c.top.IsAt m id i) (name : String) (args : List Datum) :
    (c.runtime id name args).Alike (Process.Alike m) (c'.runtime id name args) := by
  unfold Process.runtime
  split
  · split_ifs
    · exact .next (h.finish hat _)
    · have hread : Process.Alike m { c with input := fun i ↦ c.input (i + 1) }
          { c' with input := fun i ↦ c.input (i + 1) } := ⟨h.top, h.callers, h.memory, rfl, h.output⟩
      rw [h.input]
      exact .next (hread.finish hat _)
    · rw [h.output]
      exact .halt _
    · exact .stuck
  · rename_i w
    rw [h.output]
    split_ifs
    · have hwritten : Process.Alike m { c with output := c.output ++ [w] }
          { c' with output := c.output ++ [w] } := ⟨h.top, h.callers, h.memory, h.input, rfl⟩
      exact .next (hwritten.finish hat _)
    · exact .halt _
    · exact .stuck
  · split_ifs
    · exact .next (h.allocate hat _)
    · exact .stuck
  · exact .stuck

theorem enter (h : c.Alike m c') (hat : c.top.IsAt m id i) (unset unset' : ℕ → Datum) (k : ℕ)
    (args : List Datum) :
    (c.enter m unset id k args).Alike (Process.Alike m) (c'.enter m unset' id k args) := by
  unfold Process.enter
  cases m.functions[k]? with
  | none => exact .stuck
  | some f =>
    dsimp only
    split_ifs
    · exact h.runtime hat f.name args
    · exact .next { h with
        top := Activation.alike_enter m k args unset unset'
        callers := .cons ⟨rfl, h.top.wait hat⟩ h.callers }
    · exact .stuck

theorem call (hm : ∀ f ∈ m.functions, f.IsSsa) (h : c.Alike m c') {callee : Callee}
    {vs : List Operand} (hat : c.top.IsAt m id (.call callee vs)) (serial : ℕ)
    (unset unset' : ℕ → Datum) (args : List Datum) :
    (c.call m serial unset id args callee).Alike (Process.Alike m)
      (c'.call m serial unset' id args callee) := by
  unfold Process.call
  cases callee with
  | function r =>
    dsimp only
    split_ifs
    · exact h.enter hat unset unset' r.index args
    · exact .stuck
  | indirect pointer =>
    dsimp only
    rw [h.operand hm hat List.mem_cons_self]
    cases c.operand pointer with
    | code k => exact h.enter hat unset unset' k args
    | _ => exact .stuck

theorem ret (h : c.Alike m c') (d : Datum) :
    (c.ret d).Alike (Process.Alike m) (c'.ret d) := by
  obtain ⟨r, -, htop, -⟩ := h.top
  have hslots : c'.top.slots = c.top.slots := by rw [htop]
  have hcallers := h.callers
  unfold Process.ret
  rw [h.memory, h.output, hslots]
  cases hc : c.callers with
  | nil =>
    rw [hc] at hcallers
    rw [List.forall₂_nil_left_iff.1 hcallers]
    exact .halt _
  | cons x rest =>
    rw [hc] at hcallers
    obtain ⟨x', rest', ⟨hid, hx⟩, hrest, hc'⟩ := List.forall₂_cons_left_iff.1 hcallers
    rw [hc']
    dsimp only
    rw [hid]
    exact .next { h with
      top := hx.resume d
      callers := hrest
      memory := rfl
      output := rfl }

/-- An instruction does the same to processes that are alike. -/
theorem execute (hm : ∀ f ∈ m.functions, f.IsSsa) (h : c.Alike m c') (hat : c.top.IsAt m id i)
    (serial : ℕ) (unset unset' : ℕ → Datum) :
    (c.execute m serial unset id i).Alike (Process.Alike m) (c'.execute m serial unset' id i) := by
  have hop {v : Operand} (hv : v ∈ i.role.operands) : c'.operand v = c.operand v :=
    h.operand hm hat hv
  have hcompute := h.compute hm hat
  unfold Process.execute
  cases i with
  | alloca type =>
    obtain ⟨r, p, htop, hrest⟩ := h.top
    have htop' : Process.Alike m
        { c with top := { c.top with slots := c.memory.length :: c.top.slots } }
        { c' with top := { c'.top with slots := c'.memory.length :: c'.top.slots } } :=
      { h with top := ⟨r, p, by rw [htop, h.memory], hrest⟩ }
    exact .next (htop'.allocate (i := .alloca type) hat _)
  | load v | loadPointer v =>
    dsimp only
    rw [hop List.mem_cons_self]
    exact h.load hat _
  | store v w =>
    dsimp only
    rw [hop List.mem_cons_self, hop (List.mem_cons_of_mem _ List.mem_cons_self)]
    exact h.store hat _ _
  | call callee vs =>
    have hargs : vs.map c'.operand = vs.map c.operand := by
      refine List.map_congr_left fun v hv ↦ hop ?_
      cases callee with
      | function r => exact hv
      | indirect pointer => exact List.mem_cons_of_mem _ hv
    dsimp only
    rw [hargs]
    exact h.call hm hat serial unset unset' _
  | br target => exact .next (h.goto hm hat rfl List.mem_cons_self)
  | condBr cond thenTarget elseTarget =>
    dsimp only
    rw [hop List.mem_cons_self]
    cases c.operand cond with
    | word w =>
      refine .next (h.goto hm hat rfl ?_)
      split_ifs
      · exact List.mem_cons_self
      · exact List.mem_cons_of_mem _ List.mem_cons_self
    | _ => exact .stuck
  | ret v =>
    dsimp only
    rw [hop List.mem_cons_self]
    exact h.ret _
  | unreachable => exact .stuck
  | binary op l r =>
    dsimp only
    rw [hop List.mem_cons_self, hop (List.mem_cons_of_mem _ List.mem_cons_self), h.output]
    split_ifs
    · exact .halt _
    · rw [hcompute]
      cases c.compute (.binary op l r) with
      | none => exact .stuck
      | some d => exact .next (h.finish hat d)
  | icmp | zext | phi | intToPtr | ptrToInt | elementPtr | fieldPtr | functionTablePtr | inputPtr =>
    -- the instructions that only compute
    dsimp only
    rw [hcompute]
    generalize c.compute _ = o
    cases o with
    | none => exact .stuck
    | some d => exact .next (h.finish hat d)

/-- A step does the same to processes that are alike. -/
theorem step (hm : ∀ f ∈ m.functions, f.IsSsa) (h : c.Alike m c') (serial : ℕ)
    (unset unset' : ℕ → Datum) :
    (c.step m serial unset).Alike (Process.Alike m) (c'.step m serial unset') := by
  have hcurrent : c'.current m = c.current m := by
    obtain ⟨r, -, htop, -⟩ := h.top
    unfold Process.current
    rw [htop]
  unfold Process.step
  rw [hcurrent]
  cases hat : c.current m with
  | none => exact .stuck
  | some x => exact h.execute hm hat serial unset unset'

end Process.Alike

theorem Process.alike_start (m : Module) (unset unset' : ℕ → Datum) (args input : ℕ → Word) :
    (Process.start m unset args input).Alike m (Process.start m unset' args input) :=
  ⟨Activation.alike_enter m _ [] unset unset', .nil, rfl, rfl, rfl⟩

/-- The outcomes show the same: the memory, the input that is left and the output of a process that
goes on, or how it ended. -/
def SameBehavior (o o' : Outcome Process (List Word × Stop)) : Prop :=
  o.Alike (fun c c' ↦ c'.memory = c.memory ∧ c'.input = c.input ∧ c'.output = c.output) o'

end Sipc.Llvm

namespace Sipc

open Llvm Library Machine

/-- A run of a compiled program never depends on what a register holds before it is set, whatever was
compiled before. -/
theorem ASTProgram.runsAlike_of_codegen {p : ASTProgram} {fields : List String}
    {s s' : CodegenState} {m : Module} (hreturns : Run.Returns (p.codegen fields) s m s')
    (unset unset' : ℕ → Datum) (args input : ℕ → Word) (n : ℕ) :
    SameBehavior (Machine.run (Process.step m s'.serial unset) n (Process.start m unset args input))
      (Machine.run (Process.step m s'.serial unset') n (Process.start m unset' args input)) := by
  have hm (f : Llvm.Function) (hf : f ∈ m.functions) : f.IsSsa :=
    (ASTProgram.completed_of_codegen hreturns f hf).isSsa
  refine Outcome.Alike.mono (run_alike (fun c c' h ↦ h.step hm s'.serial unset unset') n
    (Process.alike_start m unset unset' args input)) fun c c' h ↦ ?_
  exact ⟨h.memory, h.input, h.output⟩

theorem runsAlike_countdownProgram :
    ∃ m s, Run.Returns (countdownProgram.codegen []) .initial m s ∧
      SameBehavior
        (Machine.run (Process.step m s.serial fun _ ↦ .undefined) 99
          (Process.start m (fun _ ↦ .undefined) (fun _ ↦ 3) fun _ ↦ 0))
        (Machine.run (Process.step m s.serial fun _ ↦ .word 7) 99
          (Process.start m (fun _ ↦ .word 7) (fun _ ↦ 3) fun _ ↦ 0)) := by
  have hreturns : Run.Returns (countdownProgram.codegen []) .initial _ _ := ⟨rfl, rfl⟩
  exact ⟨_, _, hreturns, ASTProgram.runsAlike_of_codegen hreturns _ _ _ _ 99⟩

end Sipc
