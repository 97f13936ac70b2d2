import Sipc.Codegen.RegisterUse

/-!
# Control stays in the code

In a module whose functions are in static single assignment form control never runs over the end of a
block, never jumps to a block that is not there, and comes to a phi only from a block that the phi has
an entry for (`Process.Placed`, `Process.Placed.step`). So it is in every run of a compiled program
(`ASTProgram.staysInCode_of_codegen`).
-/

set_option autoImplicit false
set_option relaxedAutoImplicit false

namespace Sipc.Llvm

open Library Machine

/-- There is a next instruction, and a jump to the block from the block that control came from. -/
structure Activation.Placed (m : Module) (a : Activation) : Prop where
  isAt : ∃ id i, a.IsAt m id i
  jumped : a.block = 0 ∨ 0 < instructionSet.jumps (m.code a.function) a.previous a.block

/-- All activations are in the code. -/
structure Process.Placed (m : Module) (c : Process) : Prop where
  top : c.top.Placed m
  callers : ∀ x ∈ c.callers, x.2.Placed m

/-! ### Activations -/

section Activations

variable {m : Module} {a : Activation} {id : ℕ} {i : Instruction}

/-- A block of the function has a first instruction. -/
theorem Function.IsSsa.exists_first {f : Function} (hf : f.IsSsa) {l : ℕ} (hl : l < f.blocks.length) :
    ∃ id i, (blockAt f.blocks l)[0]? = some (id, i) := by
  obtain ⟨body, last, hblock, -⟩ := hf.closed _ (blockAt_mem hl)
  rw [hblock]
  cases body with
  | nil => exact ⟨last.1, last.2, rfl⟩
  | cons x body => exact ⟨x.1, x.2, rfl⟩

/-- Behind an instruction that is not a terminator there is another one. -/
theorem Activation.Placed.finish (hm : ∀ f ∈ m.functions, f.IsSsa) (h : a.Placed m)
    (hat : a.IsAt m id i) (hi : i.role.isTerminator = false) (r : ℕ → Datum) :
    Activation.Placed m { a with position := a.position + 1, registers := r } := by
  obtain ⟨f, hf, hcode, hmem, -⟩ := hat.exists_code
  obtain ⟨body, last, hblock, hlast, -⟩ := (hm f hf).closed _ hmem
  unfold Activation.IsAt at hat
  rw [hcode, hblock] at hat
  have hlt := (List.getElem?_eq_some_iff.1 hat).1
  rw [List.length_append, List.length_singleton] at hlt
  have hne : a.position ≠ body.length := by
    intro heq
    rw [heq, List.getElem?_concat_length] at hat
    rw [Option.some.inj hat] at hlast
    exact absurd (hlast.symm.trans hi) (by decide)
  have hnext : a.position + 1 < (blockAt (m.code a.function) a.block).length := by
    rw [hcode, hblock, List.length_append, List.length_singleton]
    omega
  exact ⟨⟨_, _, List.getElem?_eq_getElem hnext⟩, h.jumped⟩

/-- A terminator goes to the start of a block. -/
theorem Activation.IsAt.placed_goto (hm : ∀ f ∈ m.functions, f.IsSsa) (hat : a.IsAt m id i) {l : ℕ}
    (hl : l ∈ i.role.targets) (r : ℕ → Datum) :
    Activation.Placed m
      { a with block := l, position := 0, previous := a.block, registers := r } := by
  obtain ⟨f, hf, hcode, -⟩ := hat.exists_code
  have hjump : 0 < instructionSet.jumps (m.code a.function) a.block l :=
    List.count_pos_iff.2 (List.mem_flatMap.2 ⟨(id, i), List.mem_of_getElem? hat, hl⟩)
  refine ⟨?_, .inr hjump⟩
  rw [hcode] at hjump
  unfold Activation.IsAt
  dsimp only
  rw [hcode]
  exact (hm f hf).exists_first ((hm f hf).targets _ _ hjump).2

/-- A function with code starts in its entry block. -/
theorem Activation.placed_enter (hm : ∀ f ∈ m.functions, f.IsSsa) {k : ℕ} {f : Function}
    (hf : m.functions[k]? = some f) (hcode : f.blocks ≠ []) (args : List Datum)
    (unset : ℕ → Datum) : Activation.Placed m ⟨k, 0, 0, 0, args, unset, []⟩ := by
  refine ⟨?_, .inl rfl⟩
  unfold Activation.IsAt Module.code
  dsimp only
  rw [hf]
  exact (hm f (List.mem_of_getElem? hf)).exists_first (List.length_pos_iff.2 hcode)

end Activations

/-! ### Steps -/

namespace Process.Placed

variable {m : Module} {c : Process} {id : ℕ} {i : Instruction}

theorem finish (hm : ∀ f ∈ m.functions, f.IsSsa) (h : c.Placed m) (hat : c.top.IsAt m id i)
    (hi : i.role.isTerminator = false) (d : Datum) : (c.finish id d).Placed m :=
  { h with top := h.top.finish hm hat hi _ }

theorem goto (hm : ∀ f ∈ m.functions, f.IsSsa) (h : c.Placed m) (hat : c.top.IsAt m id i) {l : ℕ}
    (hl : l ∈ i.role.targets) : (c.goto id l).Placed m :=
  { h with top := hat.placed_goto hm hl _ }

theorem allocate (hm : ∀ f ∈ m.functions, f.IsSsa) (h : c.Placed m) (hat : c.top.IsAt m id i)
    (hi : i.role.isTerminator = false) (words : List Datum) : (c.allocate id words).Placed m :=
  finish (c := { c with memory := c.memory ++ [⟨words, true⟩] }) hm ⟨h.top, h.callers⟩ hat hi _

theorem load (hm : ∀ f ∈ m.functions, f.IsSsa) (h : c.Placed m) (hat : c.top.IsAt m id i)
    (hi : i.role.isTerminator = false) (d : Datum) :
    (c.load id d).All (Process.Placed m) := by
  unfold Process.load
  split
  · split_ifs
    · trivial
    · split
      · exact h.finish hm hat hi _
      · trivial
  · trivial

theorem store (hm : ∀ f ∈ m.functions, f.IsSsa) (h : c.Placed m) (hat : c.top.IsAt m id i)
    (hi : i.role.isTerminator = false) (d p : Datum) :
    (c.store id d p).All (Process.Placed m) := by
  unfold Process.store
  split
  · rename_i b o
    split_ifs
    · trivial
    · exact finish (c := { c with memory := setWord c.memory b o d }) hm ⟨h.top, h.callers⟩ hat hi _
    · trivial
  · trivial

theorem runtime (hm : ∀ f ∈ m.functions, f.IsSsa) (h : c.Placed m) (hat : c.top.IsAt m id i)
    (hi : i.role.isTerminator = false) (name : String) (args : List Datum) :
    (c.runtime id name args).All (Process.Placed m) := by
  unfold Process.runtime
  split
  · split_ifs
    · exact h.finish hm hat hi _
    · exact finish (c := { c with input := fun i ↦ c.input (i + 1) }) hm ⟨h.top, h.callers⟩ hat hi _
    · trivial
    · trivial
  · rename_i w
    split_ifs
    · exact finish (c := { c with output := c.output ++ [w] }) hm ⟨h.top, h.callers⟩ hat hi _
    · trivial
    · trivial
  · split_ifs
    · exact h.allocate hm hat hi _
    · trivial
  · trivial

theorem enter (hm : ∀ f ∈ m.functions, f.IsSsa) (h : c.Placed m) (hat : c.top.IsAt m id i)
    (hi : i.role.isTerminator = false) (unset : ℕ → Datum) (k : ℕ) (args : List Datum) :
    (c.enter m unset id k args).All (Process.Placed m) := by
  unfold Process.enter
  split
  · trivial
  · rename_i f hf
    split_ifs with hcode
    · exact h.runtime hm hat hi f.name args
    · exact ⟨Activation.placed_enter hm hf hcode args unset,
        List.forall_mem_cons.2 ⟨h.top.finish hm hat hi _, h.callers⟩⟩
    · trivial

theorem call (hm : ∀ f ∈ m.functions, f.IsSsa) (h : c.Placed m) (hat : c.top.IsAt m id i)
    (hi : i.role.isTerminator = false) (serial : ℕ) (unset : ℕ → Datum) (args : List Datum)
    (callee : Callee) : (c.call m serial unset id args callee).All (Process.Placed m) := by
  unfold Process.call
  split
  · split_ifs
    · exact h.enter hm hat hi unset _ args
    · trivial
  · split
    · exact h.enter hm hat hi unset _ args
    · trivial

theorem ret (h : c.Placed m) (d : Datum) : (c.ret d).All (Process.Placed m) := by
  have hcallers := h.callers
  unfold Process.ret
  split
  · trivial
  · rename_i k caller callers heq
    rw [heq] at hcallers
    obtain ⟨hcaller, hrest⟩ := List.forall_mem_cons.1 hcallers
    exact ⟨⟨hcaller.isAt, hcaller.jumped⟩, hrest⟩

/-- An instruction keeps control in the code. -/
theorem execute (hm : ∀ f ∈ m.functions, f.IsSsa) (h : c.Placed m) (hat : c.top.IsAt m id i)
    (serial : ℕ) (unset : ℕ → Datum) :
    (c.execute m serial unset id i).All (Process.Placed m) := by
  unfold Process.execute
  cases i with
  | alloca type =>
    have hslot : Process.Placed m
        { c with top := { c.top with slots := c.memory.length :: c.top.slots } } :=
      ⟨⟨h.top.isAt, h.top.jumped⟩, h.callers⟩
    exact hslot.allocate (i := .alloca type) hm hat rfl _
  | load v | loadPointer v => exact h.load hm hat rfl _
  | store v w => exact h.store hm hat rfl _ _
  | call callee vs => exact h.call hm hat (by cases callee <;> rfl) serial unset _ callee
  | br target => exact h.goto hm hat List.mem_cons_self
  | condBr cond thenTarget elseTarget =>
    dsimp only
    split
    · refine h.goto hm hat ?_
      split_ifs
      · exact List.mem_cons_self
      · exact List.mem_cons_of_mem _ List.mem_cons_self
    · trivial
  | ret v => exact h.ret _
  | unreachable => trivial
  | binary op l r =>
    dsimp only
    split_ifs
    · trivial
    · split
      · exact h.finish hm hat rfl _
      · trivial
  | icmp | zext | phi | intToPtr | ptrToInt | elementPtr | fieldPtr | functionTablePtr | inputPtr =>
    -- the instructions that only compute
    dsimp only
    split
    · exact h.finish hm hat rfl _
    · trivial

/-- A step keeps control in the code. -/
theorem step (hm : ∀ f ∈ m.functions, f.IsSsa) (h : c.Placed m) (serial : ℕ) (unset : ℕ → Datum) :
    (c.step m serial unset).All (Process.Placed m) := by
  obtain ⟨id, i, hat⟩ := h.top.isAt
  have hcurrent : c.current m = some (id, i) := hat
  unfold Process.step
  rw [hcurrent]
  exact h.execute hm hat serial unset

/-- A phi in a block that control jumped to has an entry for the block that control came from. -/
theorem exists_incoming (hm : ∀ f ∈ m.functions, f.IsSsa) (h : c.Placed m)
    {incoming : List (Operand × IR.Label)} (hat : c.top.IsAt m id (.phi incoming))
    (hblock : c.top.block ≠ 0) : ∃ v, (v, c.top.previous) ∈ incoming := by
  obtain ⟨f, hf, hcode, -⟩ := hat.exists_code
  have hjump := h.top.jumped.resolve_left hblock
  have hmem := List.mem_of_getElem? hat
  rw [hcode] at hjump hmem
  have hcount := (hm f hf).incoming _ _ hmem rfl c.top.previous
  rw [← hcount] at hjump
  obtain ⟨⟨v, l⟩, hv, rfl⟩ := List.mem_map.1 (List.count_pos_iff.1 hjump)
  exact ⟨v, hv⟩

end Process.Placed

/-- The program starts in code, if it starts at all. -/
theorem Process.placed_start {m : Module} {serial : ℕ} {unset : ℕ → Datum} {args input : ℕ → Word}
    {c : Process}
    (hstep : (Process.start m unset args input).step m serial unset = .next c) :
    (Process.start m unset args input).Placed m := by
  refine ⟨⟨?_, .inl rfl⟩, List.forall_mem_nil _⟩
  unfold Process.step at hstep
  cases hat : (Process.start m unset args input).current m with
  | none =>
    rw [hat] at hstep
    cases hstep
  | some x => exact ⟨x.1, x.2, hat⟩

end Sipc.Llvm

namespace Sipc

open Llvm Library Machine

/-- Wherever a run of a compiled program comes to, there is a next instruction, and if this is a phi in
a block that control jumped to, it has an entry for the block that control came from. -/
theorem ASTProgram.staysInCode_of_codegen {p : ASTProgram} {fields : List String}
    {s s' : CodegenState} {m : Module} (hreturns : Run.Returns (p.codegen fields) s m s')
    (unset : ℕ → Datum) (args input : ℕ → Word) {n : ℕ} {c : Process}
    (hrun : Machine.run (Process.step m s'.serial unset) (n + 1) (Process.start m unset args input) =
      .next c) :
    ∃ id i, c.current m = some (id, i) ∧ ∀ incoming, i = .phi incoming → c.top.block ≠ 0 →
      ∃ v, (v, c.top.previous) ∈ incoming := by
  have hm (f : Llvm.Function) (hf : f ∈ m.functions) : f.IsSsa :=
    (ASTProgram.completed_of_codegen hreturns f hf).isSsa
  have hstart : (Process.start m unset args input).Placed m := by
    cases hstep : (Process.start m unset args input).step m s'.serial unset with
    | next d => exact Process.placed_start hstep
    | halt r =>
      rw [Machine.run, hstep] at hrun
      cases hrun
    | stuck =>
      rw [Machine.run, hstep] at hrun
      cases hrun
  have hplaced := run_all (fun c h ↦ h.step hm s'.serial unset) (n + 1) hstart
  rw [hrun] at hplaced
  have hc : c.Placed m := hplaced
  obtain ⟨id, i, hat⟩ := hc.top.isAt
  refine ⟨id, i, hat, ?_⟩
  rintro incoming rfl hblock
  exact hc.exists_incoming hm hat hblock

theorem staysInCode_countdownProgram : ∃ m s c,
    Run.Returns (countdownProgram.codegen []) .initial m s ∧
      Machine.run (Process.step m s.serial fun _ ↦ .undefined) 9
        (Process.start m (fun _ ↦ .undefined) (fun _ ↦ 3) fun _ ↦ 0) = .next c ∧
        ∃ id i, c.current m = some (id, i) ∧ ∀ incoming, i = .phi incoming → c.top.block ≠ 0 →
          ∃ v, (v, c.top.previous) ∈ incoming := by
  have hreturns : Run.Returns (countdownProgram.codegen []) .initial _ _ := ⟨rfl, rfl⟩
  refine ⟨_, _, _, hreturns, rfl, ?_⟩
  exact ASTProgram.staysInCode_of_codegen (n := 8) hreturns (fun _ ↦ .undefined) (fun _ ↦ 3)
    (fun _ ↦ 0) rfl

end Sipc
