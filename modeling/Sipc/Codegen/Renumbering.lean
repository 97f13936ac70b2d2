import Mathlib.Data.List.Perm.Subperm
import Sipc.Codegen.ModuleCodegen
import Sipc.Frontend.ASTVisualizer

/-!
# Renumbered modules

The modules and the values of a process are numbered in the order in which they are made, so what a
later compilation makes has higher numbers. An `Offset` says how far two compilations are apart, and
`shift` is the first one's value, function or module with the second one's numbers. The operations on
modules do not look at the numbers, so they commute with `shift`.
-/

set_option autoImplicit false
set_option relaxedAutoImplicit false

namespace Sipc.Llvm

/-- How far the modules and the values of a compilation are numbered ahead of those of another. -/
structure Offset where
  modules : ℕ
  ids : ℕ

/-- Things that hold numbers of modules and values. -/
class Shifts (α : Type) where
  shift : Offset → α → α

export Shifts (shift)

/-! ### Values -/

instance : Shifts Unit := ⟨fun _ a ↦ a⟩

instance : Shifts Bool := ⟨fun _ a ↦ a⟩

/-- Blocks and fields are numbered from 0 in every compilation. -/
instance : Shifts ℕ := ⟨fun _ a ↦ a⟩

instance : Shifts String := ⟨fun _ a ↦ a⟩

instance {α : Type} [Shifts α] : Shifts (List α) := ⟨fun d ↦ List.map (shift d)⟩

instance {α : Type} [Shifts α] : Shifts (Option α) := ⟨fun d ↦ Option.map (shift d)⟩

instance {α β : Type} [Shifts α] [Shifts β] : Shifts (α × β) := ⟨fun d p ↦ (shift d p.1, shift d p.2)⟩

instance : Shifts FunctionRef := ⟨fun d f ↦ { f with module := f.module + d.modules }⟩

def Operand.shift (d : Offset) : Operand → Operand
  | .result id kind => .result (id + d.ids) kind
  | v => v

instance : Shifts Operand := ⟨Operand.shift⟩

instance : Shifts Alloca := ⟨fun d a ↦ { a with id := a.id + d.ids }⟩

def Callee.shift (d : Offset) : Callee → Callee
  | .function f => .function (Shifts.shift d f)
  | .indirect v => .indirect (Shifts.shift d v)

instance : Shifts Callee := ⟨Callee.shift⟩

def Instruction.shift (d : Offset) : Instruction → Instruction
  | .alloca type => .alloca type
  | .load ptr => .load (Shifts.shift d ptr)
  | .loadPointer ptr => .loadPointer (Shifts.shift d ptr)
  | .store val ptr => .store (Shifts.shift d val) (Shifts.shift d ptr)
  | .binary op left right => .binary op (Shifts.shift d left) (Shifts.shift d right)
  | .icmp pred left right => .icmp pred (Shifts.shift d left) (Shifts.shift d right)
  | .zext val => .zext (Shifts.shift d val)
  | .phi incoming => .phi (Shifts.shift d incoming)
  | .intToPtr val => .intToPtr (Shifts.shift d val)
  | .ptrToInt ptr => .ptrToInt (Shifts.shift d ptr)
  | .elementPtr base index => .elementPtr (Shifts.shift d base) (Shifts.shift d index)
  | .fieldPtr record index => .fieldPtr (Shifts.shift d record) index
  | .functionTablePtr index => .functionTablePtr (Shifts.shift d index)
  | .inputPtr index => .inputPtr index
  | .call callee args => .call (Shifts.shift d callee) (Shifts.shift d args)
  | .br target => .br target
  | .condBr cond thenTarget elseTarget => .condBr (Shifts.shift d cond) thenTarget elseTarget
  | .ret val => .ret (Shifts.shift d val)
  | .unreachable => .unreachable

instance : Shifts Instruction := ⟨Instruction.shift⟩

/-- A numbered instruction of a block. -/
def shiftEntry (d : Offset) (e : ℕ × Instruction) : ℕ × Instruction :=
  (e.1 + d.ids, shift d e.2)

def Block.shift (d : Offset) (b : Block) : Block :=
  b.map (shiftEntry d)

def Function.shift (d : Offset) (f : Function) : Function :=
  { f with blocks := f.blocks.map (Block.shift d) }

def Module.shift (d : Offset) (m : Module) : Module where
  functions := m.functions.map (Function.shift d)
  dispatchTable := Shifts.shift d m.dispatchTable
  numInputs := m.numInputs

theorem kind_shift (d : Offset) (v : Operand) : (shift d v).kind = v.kind := by
  cases v <;> rfl

theorem Instruction.kind_shift (d : Offset) (i : Instruction) : (Shifts.shift d i).kind = i.kind := by
  cases i with
  | binary op l r => exact Llvm.kind_shift d l
  | phi incoming =>
    cases incoming with
    | nil => rfl
    | cons p ps => exact Llvm.kind_shift d p.1
  | call callee args => cases callee <;> rfl
  | _ => rfl

/-! ### Modules -/

/-- The names of the functions of a module. -/
def Module.names (m : Module) : List String :=
  m.functions.map Function.name

/-- A name that is taken is given a number, with which it is not. -/
theorem Module.freshName_cases (m : Module) (name : String) :
    name ∉ m.names ∧ m.freshName name = name ∨
      name ∈ m.names ∧ m.freshName name ∉ m.names ∧
        ∃ k : ℕ, m.freshName name = name ++ "." ++ toString k := by
  by_cases hname : name ∈ m.names
  · refine Or.inr ⟨hname, ?_⟩
    set numbered := (List.range (m.names.length + 1)).map fun k ↦ name ++ "." ++ toString (k + 1)
      with hnumbered
    have hfresh : m.freshName name = (numbered.find? fun n ↦ n ∉ m.names).getD name := if_pos hname
    have hnodup : numbered.Nodup := by
      refine List.nodup_range.map fun k l hkl ↦ ?_
      have hdigits : toString (k + 1) = toString (l + 1) := by
        have hlists := congrArg String.toList hkl
        simp only [String.toList_append, List.append_cancel_left_eq] at hlists
        exact String.toList_inj.1 hlists
      exact Nat.succ.inj (toString_nat_injective hdigits)
    -- There are more numbers than names.
    obtain ⟨n, hn, hfree⟩ : ∃ n ∈ numbered, n ∉ m.names := by
      by_contra hall
      push Not at hall
      have hle := (hnodup.subperm hall).length_le
      rw [hnumbered, List.length_map, List.length_range] at hle
      omega
    obtain ⟨n', hn'⟩ := Option.isSome_iff_exists.1 (List.find?_isSome
      (p := fun n ↦ decide (n ∉ m.names)) |>.2 ⟨n, hn, decide_eq_true hfree⟩)
    rw [hfresh, hn', Option.getD_some]
    have htaken := List.find?_some hn'
    obtain ⟨k, -, rfl⟩ := List.mem_map.1 (List.mem_of_find?_eq_some hn')
    exact ⟨of_decide_eq_true htaken, k + 1, rfl⟩
  · exact Or.inl ⟨hname, if_neg hname⟩

section Shift

variable (d : Offset) (m : Module)

theorem Module.names_shift : (m.shift d).names = m.names := by
  unfold names shift
  rw [List.map_map]
  rfl

theorem Module.find_shift (name : String) : (m.shift d).find name = m.find name := by
  unfold find shift
  rw [List.findIdx?_map]
  rfl

theorem Module.create_shift (name : String) (args : List String) (k : Kind) :
    (m.create name args k).shift d = (m.shift d).create name args k := by
  have hfresh : (m.shift d).freshName name = m.freshName name := by
    unfold freshName
    rw [show (m.shift d).functions.map Function.name = m.functions.map Function.name from
      m.names_shift d]
  unfold create
  rw [hfresh]
  unfold shift
  rw [List.map_append]
  rfl

theorem Module.modify_shift {f f' : Function → Function}
    (h : ∀ g, (f g).shift d = f' (g.shift d)) (i : ℕ) :
    { m with functions := m.functions.modify i f }.shift d =
      { m.shift d with functions := (m.shift d).functions.modify i f' } := by
  unfold shift
  congr 1
  refine List.ext_getElem? fun j ↦ ?_
  simp only [List.getElem?_map, List.getElem?_modify, Option.map_eq_map, Option.map_map]
  congr 1
  funext g
  by_cases hij : i = j <;> simp [hij, h]

theorem Module.addBlock_shift (i : ℕ) : (m.addBlock i).shift d = (m.shift d).addBlock i := by
  refine m.modify_shift d (fun g ↦ ?_) i
  unfold Function.shift
  rw [List.map_append]
  rfl

theorem Module.modifyBlock_shift {change change' : Block → Block}
    (h : ∀ b, (change b).shift d = change' (b.shift d)) (i : ℕ) (l : IR.Label) :
    (m.modifyBlock i l change).shift d = (m.shift d).modifyBlock i l change' := by
  refine m.modify_shift d (fun g ↦ ?_) i
  unfold Function.shift
  congr 1
  refine List.ext_getElem? fun j ↦ ?_
  simp only [List.getElem?_map, List.getElem?_modify, Option.map_eq_map, Option.map_map]
  congr 1
  funext b
  by_cases hlj : l = j <;> simp [hlj, h]

theorem Module.length_blocks_shift (i : ℕ) :
    ((m.shift d).functions[i]?.map fun f ↦ f.blocks.length) =
      m.functions[i]?.map fun f ↦ f.blocks.length := by
  unfold shift
  rw [List.getElem?_map, Option.map_map]
  congr 1
  funext f
  exact List.length_map _

theorem Module.args_shift (i : ℕ) :
    (m.shift d).functions[i]?.map Function.args = m.functions[i]?.map Function.args := by
  unfold shift
  rw [List.getElem?_map, Option.map_map]
  rfl

end Shift

end Sipc.Llvm
