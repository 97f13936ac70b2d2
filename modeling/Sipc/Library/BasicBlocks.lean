import Mathlib.Data.List.Basic
import Mathlib.Data.List.Nodup
import Mathlib.Data.Set.Basic

/-!
# Basic blocks in static single assignment form

The code of a function is a list of blocks, in which an instruction is a phi, a plain instruction or a
terminator (`Role`). Control starts in block 0 and goes along the jumps of the terminators (`Walk`).
`IsSsa` is what a verifier of such code asks for: every block has one terminator, at its end; phis come
first, with one entry for each jump to their block; every value is computed in one place; and on every
walk to an instruction the values it uses have been computed.

The last condition is about all walks. A `Certificate` names for every block values that are available
on entry, and is checked jump by jump; `Certificate.computed` is the argument that this is enough.
-/

set_option autoImplicit false
set_option relaxedAutoImplicit false

namespace Sipc.Library

/-- What an instruction is for the form of the code, over values `ν`. -/
inductive Role (ν : Type)
  /-- One value for each block that control may come from. -/
  | phi (incoming : List (ν × ℕ))
  | plain (operands : List ν)
  | terminator (operands : List ν) (targets : List ℕ)

namespace Role

variable {ν : Type}

/-- The values that are used where the instruction stands. -/
def operands : Role ν → List ν
  | .phi _ => []
  | .plain vs | .terminator vs _ => vs

def incoming : Role ν → List (ν × ℕ)
  | .phi entries => entries
  | _ => []

def targets : Role ν → List ℕ
  | .terminator _ ts => ts
  | _ => []

def isPhi : Role ν → Bool
  | .phi _ => true
  | _ => false

def isTerminator : Role ν → Bool
  | .terminator _ _ => true
  | _ => false

theorem targets_eq_nil {r : Role ν} (h : r.isTerminator = false) : r.targets = [] := by
  cases r with
  | phi | plain => rfl
  | terminator => cases h

end Role

/-- Instructions `δ` that compute values `ν`. -/
structure InstructionSet (δ ν : Type) where
  role : δ → Role ν
  result : δ → ν

/-- The block with that label, which is empty where there is none. -/
def blockAt {δ : Type} (blocks : List (List δ)) (l : ℕ) : List δ :=
  blocks.getD l []

section Blocks

variable {δ : Type} {blocks : List (List δ)} {l : ℕ}

theorem blockAt_eq_nil (h : blocks.length ≤ l) : blockAt blocks l = [] := by
  unfold blockAt
  rw [List.getD_eq_getElem?_getD, List.getElem?_eq_none h]
  rfl

theorem blockAt_mem (h : l < blocks.length) : blockAt blocks l ∈ blocks := by
  unfold blockAt
  rw [List.getD_eq_getElem?_getD, List.getElem?_eq_getElem h]
  exact List.getElem_mem h

theorem exists_blockAt {b : List δ} (h : b ∈ blocks) : ∃ l < blocks.length, blockAt blocks l = b := by
  obtain ⟨l, hl, rfl⟩ := List.getElem_of_mem h
  refine ⟨l, hl, ?_⟩
  unfold blockAt
  rw [List.getD_eq_getElem?_getD, List.getElem?_eq_getElem hl]
  rfl

theorem blockAt_modify_self {f : List δ → List δ} (h : l < blocks.length) :
    blockAt (blocks.modify l f) l = f (blockAt blocks l) := by
  simp [blockAt, List.getD_eq_getElem?_getD, List.getElem?_eq_getElem h]

theorem blockAt_modify_of_ne {f : List δ → List δ} {c : ℕ} (h : l ≠ c) :
    blockAt (blocks.modify c f) l = blockAt blocks l := by
  simp [blockAt, List.getD_eq_getElem?_getD, h.symm]

@[simp] theorem blockAt_append_nil : blockAt (blocks ++ [[]]) l = blockAt blocks l := by
  unfold blockAt
  rw [List.getD_eq_getElem?_getD, List.getD_eq_getElem?_getD]
  by_cases h : l < blocks.length
  · rw [List.getElem?_append_left h]
  · rw [List.getElem?_append_right (Nat.le_of_not_lt h), List.getElem?_eq_none (Nat.le_of_not_lt h)]
    cases l - blocks.length <;> rfl

/-- An instruction that is added to a block is added to the code. -/
theorem perm_flatten_modify {f : List δ → List δ} {x : δ} (hf : ∀ b, (f b).Perm (x :: b)) :
    ∀ {blocks : List (List δ)} {l : ℕ}, l < blocks.length →
      (blocks.modify l f).flatten.Perm (x :: blocks.flatten)
  | b :: blocks, 0, _ => by
    rw [List.modify_zero_cons, List.flatten_cons, List.flatten_cons]
    exact (hf b).append_right _
  | b :: blocks, l + 1, h => by
    rw [List.modify_succ_cons, List.flatten_cons, List.flatten_cons]
    exact ((perm_flatten_modify hf (Nat.lt_of_succ_lt_succ h)).append_left b).trans
      List.perm_middle

end Blocks

namespace InstructionSet

variable {δ ν : Type} (I : InstructionSet δ ν)

/-- The values that the instructions compute. -/
def results (code : List δ) : Set ν :=
  {v | ∃ x ∈ code, I.result x = v}

/-- How often the terminator of a block names a label. -/
def jumps (blocks : List (List δ)) (a l : ℕ) : ℕ :=
  ((blockAt blocks a).flatMap fun x ↦ (I.role x).targets).count l

/-- One terminator, at the end. -/
def Closed (code : List δ) : Prop :=
  ∃ body last, code = body ++ [last] ∧ (I.role last).isTerminator = true ∧
    ∀ x ∈ body, (I.role x).isTerminator = false

/-- What may be before a phi is a phi. -/
def PhisFirst (code : List δ) : Prop :=
  code.Pairwise fun x y ↦ (I.role y).isPhi = true → (I.role x).isPhi = true

/-- The blocks that control goes through, the last one first. -/
inductive Walk (blocks : List (List δ)) : List ℕ → Prop
  | entry : Walk blocks [0]
  | jump {a l : ℕ} {p : List ℕ} (h : Walk blocks (a :: p)) (hjump : 0 < I.jumps blocks a l) :
    Walk blocks (l :: a :: p)

/-- The values that are there after a walk: given ones, and what its blocks have computed. -/
def computed (given : Set ν) (blocks : List (List δ)) (p : List ℕ) : Set ν :=
  {v | v ∈ given ∨ ∃ a ∈ p, v ∈ I.results (blockAt blocks a)}

/-- Code in static single assignment form, over given values. -/
structure IsSsa (given : Set ν) (blocks : List (List δ)) : Prop where
  closed : ∀ b ∈ blocks, I.Closed b
  /-- Every jump is to a block, and none to the entry. -/
  targets : ∀ a l, 0 < I.jumps blocks a l → 0 < l ∧ l < blocks.length
  phisFirst : ∀ b ∈ blocks, I.PhisFirst b
  /-- A phi has an entry for each jump to its block. -/
  incoming : ∀ l, ∀ x ∈ blockAt blocks l, (I.role x).isPhi = true →
    ∀ a, ((I.role x).incoming.map Prod.snd).count a = I.jumps blocks a l
  once : (blocks.flatten.map I.result).Nodup
  /-- What an instruction uses has been computed, whichever way control came to it. -/
  defined : ∀ l p, I.Walk blocks (l :: p) → ∀ before x after,
    blockAt blocks l = before ++ x :: after → ∀ v ∈ (I.role x).operands,
      v ∈ I.computed given blocks p ∨ v ∈ I.results before
  /-- What a phi takes for a block has been computed wherever control leaves that block. -/
  phiDefined : ∀ l, ∀ x ∈ blockAt blocks l, ∀ v a, (v, a) ∈ (I.role x).incoming →
    ∀ p, I.Walk blocks (a :: p) → v ∈ I.computed given blocks (a :: p)

variable {I}

theorem Walk.eq_entry {blocks : List (List δ)} {l : ℕ} (h : I.Walk blocks [l]) : l = 0 := by
  cases h
  rfl

theorem Walk.tail {blocks : List (List δ)} {a l : ℕ} {p : List ℕ}
    (h : I.Walk blocks (l :: a :: p)) : I.Walk blocks (a :: p) := by
  cases h with
  | jump h _ => exact h

@[simp] theorem results_nil : I.results [] = ∅ := by
  simp [results]

theorem mem_results {x : δ} {code : List δ} (h : x ∈ code) : I.result x ∈ I.results code :=
  ⟨x, h, rfl⟩

theorem results_mono {code code' : List δ} (h : ∀ x ∈ code, x ∈ code') :
    I.results code ⊆ I.results code' := by
  rintro v ⟨x, hx, rfl⟩
  exact mem_results (h x hx)

theorem results_append (code code' : List δ) :
    I.results (code ++ code') = I.results code ∪ I.results code' := by
  ext v
  constructor
  · rintro ⟨x, hx, rfl⟩
    rcases List.mem_append.1 hx with hx | hx
    · exact .inl (mem_results hx)
    · exact .inr (mem_results hx)
  · rintro (h | h)
    · exact results_mono (fun x ↦ List.mem_append_left _) h
    · exact results_mono (fun x ↦ List.mem_append_right _) h

theorem jumps_eq_zero {blocks : List (List δ)} {a : ℕ} (h : blocks.length ≤ a) (l : ℕ) :
    I.jumps blocks a l = 0 := by
  unfold jumps
  rw [blockAt_eq_nil h]
  rfl

/-! ### Certificates -/

/-- The values available at the end of a block, if those of `available` are on entry. -/
def availableAfter (I : InstructionSet δ ν) (given : Set ν) (available : ℕ → Set ν)
    (blocks : List (List δ)) (l : ℕ) : Set ν :=
  given ∪ available l ∪ I.results (blockAt blocks l)

/-- Values for each block that are there on entry, by whichever jump control comes. -/
structure Certificate (I : InstructionSet δ ν) (given : Set ν) (available : ℕ → Set ν)
    (blocks : List (List δ)) : Prop where
  entry : available 0 = ∅
  flow : ∀ a l, 0 < I.jumps blocks a l →
    available l ⊆ I.availableAfter given available blocks a

variable {given : Set ν} {available : ℕ → Set ν} {blocks : List (List δ)}

/-- The values a certificate names for a block have been computed on every walk to it. -/
theorem Certificate.computed (h : I.Certificate given available blocks) {l : ℕ} {p : List ℕ}
    (hwalk : I.Walk blocks (l :: p)) : available l ⊆ I.computed given blocks p := by
  intro v hv
  generalize hq : l :: p = q at hwalk
  induction hwalk generalizing l p v with
  | entry =>
    obtain ⟨rfl, rfl⟩ := List.cons.inj hq
    rw [h.entry] at hv
    exact hv.elim
  | jump _ hjump ih =>
    obtain ⟨rfl, rfl⟩ := List.cons.inj hq
    rcases h.flow _ _ hjump hv with (hv | hv) | hv
    · exact .inl hv
    · rcases ih hv rfl with hv | ⟨b, hb, hv⟩
      · exact .inl hv
      · exact .inr ⟨b, List.mem_cons_of_mem _ hb, hv⟩
    · exact .inr ⟨_, List.mem_cons_self, hv⟩

/-- The values available at the end of a block have been computed on every walk through it. -/
theorem Certificate.computed_after (h : I.Certificate given available blocks) {l : ℕ} {p : List ℕ}
    (hwalk : I.Walk blocks (l :: p)) :
    I.availableAfter given available blocks l ⊆ I.computed given blocks (l :: p) := by
  rintro v ((hv | hv) | hv)
  · exact .inl hv
  · rcases h.computed hwalk hv with hv | ⟨b, hb, hv⟩
    · exact .inl hv
    · exact .inr ⟨b, List.mem_cons_of_mem _ hb, hv⟩
  · exact .inr ⟨l, List.mem_cons_self, hv⟩

end InstructionSet

end Sipc.Library
