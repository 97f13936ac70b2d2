import Mathlib.Data.Finset.Insert
import Mathlib.Logic.Function.Basic
import Sipc.Library.BasicBlocks

/-!
# Writing code block by block

A `Draft` is the code of a function while it is written: blocks that are made before anything jumps to
them, an insertion point, and terminators that close a block. With it goes what a proof keeps in mind:
which blocks are still awaited, which may get more jumps, and which values are available on entry to a
block. The operations keep `Draft.Sound`, and code that is written to its end is in static single
assignment form (`Draft.Sound.isSsa`).

Code for a part of a program leaves the blocks it found as they are (`Draft.Frame`), and goes on from
where it started (`Draft.Extends`).
-/

set_option autoImplicit false
set_option relaxedAutoImplicit false

namespace Sipc.Library

/-- What is expected of a block. -/
inductive BlockStatus
  /-- Nothing is written in it yet. -/
  | awaited
  /-- It has been started, and more jumps to it may come. -/
  | joined
  /-- No more jumps to it come. -/
  | sealed
  deriving DecidableEq

/-- The code of a function while it is written. -/
structure Draft (δ ν : Type) where
  blocks : List (List δ)
  current : ℕ
  /-- The current block has no terminator yet. -/
  isOpen : Bool
  status : ℕ → BlockStatus
  /-- The values available on entry to a block. -/
  available : ℕ → Set ν
  /-- Values that are to stay available. -/
  kept : Set ν

namespace Draft

variable {δ ν : Type} (I : InstructionSet δ ν) (given : Set ν)

/-- The values available at the end of a block. -/
def after (d : Draft δ ν) (l : ℕ) : Set ν :=
  I.availableAfter given d.available d.blocks l

/-- The values available at the insertion point. -/
def out (d : Draft δ ν) : Set ν :=
  d.after I given d.current

/-! ### Operations -/

/-- Adds an instruction to the current block. -/
def write (d : Draft δ ν) (x : δ) : Draft δ ν :=
  { d with
    blocks := d.blocks.modify d.current fun b ↦ b ++ [x]
    isOpen := d.isOpen && !(I.role x).isTerminator }

/-- Makes a block, to which nothing jumps yet. -/
def addBlock (d : Draft δ ν) : Draft δ ν :=
  { d with
    blocks := d.blocks ++ [[]]
    status := Function.update d.status d.blocks.length .awaited
    available := Function.update d.available d.blocks.length Set.univ }

/-- Goes on in an awaited block. -/
def start (d : Draft δ ν) (l : ℕ) (st : BlockStatus) : Draft δ ν :=
  { d with current := l, isOpen := true, status := Function.update d.status l st }

/-- No more jumps to a block come. -/
def settle (d : Draft δ ν) (l : ℕ) : Draft δ ν :=
  { d with status := Function.update d.status l .sealed }

/-- Makes available in awaited blocks what is available now. -/
def offer (d : Draft δ ν) (ls : List ℕ) : Draft δ ν :=
  { d with available := fun l ↦ if l ∈ ls then d.out I given else d.available l }

/-- Ends the current block, makes available in awaited blocks what is available now, and goes on in one
of them. -/
def branch (d : Draft δ ν) (ls : List ℕ) (x : δ) (l : ℕ) (st : BlockStatus) : Draft δ ν :=
  ((d.offer I given ls).write I x).start l st

/-- Makes a block and goes on in it, with nothing jumping to it. -/
def enter (d : Draft δ ν) : Draft δ ν where
  blocks := d.blocks ++ [[]]
  current := d.blocks.length
  isOpen := true
  status := d.status
  available := Function.update d.available d.blocks.length {_v | d.blocks.length ≠ 0}
  kept := ∅

/-- Puts an instruction in front of block 0, and keeps its value. -/
def prepend (d : Draft δ ν) (x : δ) : Draft δ ν :=
  { d with
    blocks := d.blocks.modify 0 fun b ↦ x :: b
    kept := insert (I.result x) d.kept }

/-! ### Soundness -/

/-- The code so far can become code in static single assignment form. -/
structure Sound (d : Draft δ ν) : Prop where
  current_lt : d.isOpen = true → d.current < d.blocks.length ∧ d.status d.current ≠ .awaited
  unsealed : ∀ l, d.status l ≠ .sealed → 0 < l ∧ l < d.blocks.length ∧
    ∀ x ∈ blockAt d.blocks l, (I.role x).isPhi = false
  awaited : ∀ l, d.status l = .awaited → blockAt d.blocks l = [] ∧ d.kept ⊆ d.available l
  closed : ∀ l < d.blocks.length, d.status l ≠ .awaited → (d.isOpen = true → l ≠ d.current) →
    I.Closed (blockAt d.blocks l)
  opened : d.isOpen = true → ∀ x ∈ blockAt d.blocks d.current, (I.role x).isTerminator = false
  targets : ∀ a l, 0 < I.jumps d.blocks a l → 0 < l ∧ l < d.blocks.length
  phisFirst : ∀ l, I.PhisFirst (blockAt d.blocks l)
  entry : d.available 0 = ∅ ∧ ∀ x ∈ blockAt d.blocks 0, (I.role x).isPhi = false
  incoming : ∀ l, ∀ x ∈ blockAt d.blocks l, (I.role x).isPhi = true →
    ∀ a, ((I.role x).incoming.map Prod.snd).count a = I.jumps d.blocks a l
  once : (d.blocks.flatten.map I.result).Nodup
  flow : ∀ a l, 0 < I.jumps d.blocks a l → d.available l ⊆ d.after I given a
  defined : ∀ l before x after, blockAt d.blocks l = before ++ x :: after →
    ∀ v ∈ (I.role x).operands, v ∈ given ∪ d.available l ∪ I.results before
  phiDefined : ∀ l, ∀ x ∈ blockAt d.blocks l, ∀ v a, (v, a) ∈ (I.role x).incoming →
    v ∈ d.after I given a
  kept : d.isOpen = true → d.kept ⊆ d.out I given

variable {I given} {d : Draft δ ν}

/-- Code that is written to its end. -/
theorem Sound.isSsa (h : d.Sound I given) (hopen : d.isOpen = false)
    (hsealed : ∀ l, d.status l = .sealed) : I.IsSsa given d.blocks := by
  have hcertificate : I.Certificate given d.available d.blocks := ⟨h.entry.1, h.flow⟩
  refine ⟨?_, h.targets, ?_, h.incoming, h.once, ?_, ?_⟩
  · intro b hb
    obtain ⟨l, hl, rfl⟩ := exists_blockAt hb
    refine h.closed l hl ?_ ?_
    · rw [hsealed l]
      exact fun heq ↦ BlockStatus.noConfusion heq
    · intro hopen'
      rw [hopen] at hopen'
      cases hopen'
  · intro b hb
    obtain ⟨l, -, rfl⟩ := exists_blockAt hb
    exact h.phisFirst l
  · intro l p hwalk before x after hblock v hv
    rcases h.defined l before x after hblock v hv with (hv | hv) | hv
    · exact .inl (.inl hv)
    · exact .inl (hcertificate.computed hwalk hv)
    · exact .inr hv
  · intro l x hx v a hva p hwalk
    exact hcertificate.computed_after hwalk (h.phiDefined l x hx v a hva)

/-! ### An instruction -/

section Write

variable {x : δ} {l a : ℕ}

theorem blockAt_write_self (h : d.current < d.blocks.length) :
    blockAt (d.write I x).blocks d.current = blockAt d.blocks d.current ++ [x] :=
  blockAt_modify_self h

theorem blockAt_write_of_ne (h : l ≠ d.current) :
    blockAt (d.write I x).blocks l = blockAt d.blocks l :=
  blockAt_modify_of_ne h

theorem mem_blockAt_write (h : d.current < d.blocks.length) {y : δ} :
    y ∈ blockAt (d.write I x).blocks l ↔ y ∈ blockAt d.blocks l ∨ l = d.current ∧ y = x := by
  by_cases hl : l = d.current
  · subst hl
    rw [blockAt_write_self h, List.mem_append, List.mem_singleton]
    simp
  · rw [blockAt_write_of_ne hl]
    simp [hl]

theorem jumps_write (h : d.current < d.blocks.length) :
    I.jumps (d.write I x).blocks a l =
      I.jumps d.blocks a l + if a = d.current then (I.role x).targets.count l else 0 := by
  unfold InstructionSet.jumps
  by_cases ha : a = d.current
  · subst ha
    rw [blockAt_write_self h, if_pos rfl, List.flatMap_append, List.count_append]
    simp
  · rw [blockAt_write_of_ne ha, if_neg ha, Nat.add_zero]

theorem after_subset_write (h : d.current < d.blocks.length) :
    d.after I given l ⊆ (d.write I x).after I given l :=
  Set.union_subset_union_right _ (InstructionSet.results_mono fun _ hy ↦
    (mem_blockAt_write h).2 (.inl hy))

theorem out_write (h : d.current < d.blocks.length) :
    (d.write I x).out I given = insert (I.result x) (d.out I given) := by
  change given ∪ d.available d.current ∪ I.results (blockAt (d.write I x).blocks d.current) = _
  rw [blockAt_write_self h, InstructionSet.results_append, ← Set.union_assoc, Set.union_comm,
    Set.insert_eq]
  congr 1
  ext v
  constructor
  · rintro ⟨y, hy, rfl⟩
    rw [List.mem_singleton.1 hy]
    rfl
  · rintro rfl
    exact InstructionSet.mem_results (List.mem_singleton_self x)

@[simp] theorem length_write : (d.write I x).blocks.length = d.blocks.length :=
  List.length_modify ..

variable (I given d) in
/-- The instruction may stand at the insertion point. -/
structure Fits (x : δ) : Prop where
  uses : ∀ v ∈ (I.role x).operands, v ∈ d.out I given
  fresh : I.result x ∉ d.blocks.flatten.map I.result
  targets : ∀ t ∈ (I.role x).targets, d.status t ≠ .sealed ∧ d.available t ⊆ d.out I given
  phi : (I.role x).isPhi = true → d.current ≠ 0 ∧ d.status d.current = .sealed ∧
    (∀ y ∈ blockAt d.blocks d.current, (I.role y).isPhi = true) ∧
    (∀ a, ((I.role x).incoming.map Prod.snd).count a = I.jumps d.blocks a d.current) ∧
    ∀ v a, (v, a) ∈ (I.role x).incoming → v ∈ d.after I given a

/-- A jump that an instruction adds. -/
theorem jumps_write_pos (h : d.current < d.blocks.length) (hpos : 0 < I.jumps (d.write I x).blocks a l) :
    0 < I.jumps d.blocks a l ∨ a = d.current ∧ l ∈ (I.role x).targets := by
  rw [jumps_write h] at hpos
  by_cases ha : a = d.current
  · rw [if_pos ha] at hpos
    rcases Nat.eq_zero_or_pos (I.jumps d.blocks a l) with hzero | hold
    · rw [hzero, Nat.zero_add] at hpos
      exact .inr ⟨ha, List.count_pos_iff.1 hpos⟩
    · exact .inl hold
  · rw [if_neg ha, Nat.add_zero] at hpos
    exact .inl hpos

/-- An instruction is written where it fits. -/
theorem Sound.write (h : d.Sound I given) (hopen : d.isOpen = true) (hx : d.Fits I given x) :
    (d.write I x).Sound I given := by
  obtain ⟨hcurrent, hstarted⟩ := h.current_lt hopen
  constructor
  case current_lt =>
    exact fun _ ↦ ⟨by rwa [length_write], hstarted⟩
  case unsealed =>
    intro l hl
    obtain ⟨hpos, hlt, hphi⟩ := h.unsealed l hl
    refine ⟨hpos, by rwa [length_write], fun y hy ↦ ?_⟩
    rcases (mem_blockAt_write hcurrent).1 hy with hy | ⟨rfl, rfl⟩
    · exact hphi y hy
    · by_contra hnot
      exact hl (hx.phi (Bool.eq_true_of_not_eq_false hnot)).2.1
  case awaited =>
    intro l hl
    have hne : l ≠ d.current := by
      rintro rfl
      exact hstarted hl
    rw [blockAt_write_of_ne hne]
    exact h.awaited l hl
  case closed =>
    intro l hl hst hne
    rw [length_write] at hl
    by_cases hlc : l = d.current
    · subst hlc
      have hterm : (I.role x).isTerminator = true := by
        by_contra hnot
        refine hne ?_ rfl
        change (d.isOpen && !(I.role x).isTerminator) = true
        rw [hopen, Bool.eq_false_of_not_eq_true hnot]
        rfl
      exact ⟨_, x, blockAt_write_self hcurrent, hterm, h.opened hopen⟩
    · rw [blockAt_write_of_ne hlc]
      exact h.closed l hl hst fun _ ↦ hlc
  case opened =>
    intro hopen' y hy
    rcases (mem_blockAt_write hcurrent).1 hy with hy | ⟨-, rfl⟩
    · exact h.opened hopen y hy
    · exact Bool.eq_false_of_not_eq_true (by simpa using (Bool.and_eq_true_iff.1 hopen').2)
  case targets =>
    intro a l hpos
    rw [length_write]
    rcases jumps_write_pos hcurrent hpos with hold | ⟨-, hl⟩
    · exact h.targets a l hold
    · obtain ⟨hpos, hlt, -⟩ := h.unsealed l (hx.targets l hl).1
      exact ⟨hpos, hlt⟩
  case phisFirst =>
    intro l
    by_cases hlc : l = d.current
    · subst hlc
      rw [blockAt_write_self hcurrent]
      refine List.pairwise_append.2 ⟨h.phisFirst _, List.pairwise_singleton _ _, ?_⟩
      intro y hy z hz hphi
      obtain rfl := List.mem_singleton.1 hz
      exact (hx.phi hphi).2.2.1 y hy
    · rw [blockAt_write_of_ne hlc]
      exact h.phisFirst l
  case entry =>
    refine ⟨h.entry.1, fun y hy ↦ ?_⟩
    rcases (mem_blockAt_write hcurrent).1 hy with hy | ⟨hzero, rfl⟩
    · exact h.entry.2 y hy
    · by_contra hnot
      exact (hx.phi (Bool.eq_true_of_not_eq_false hnot)).1 hzero.symm
  case incoming =>
    intro l y hy hphi a
    rw [jumps_write hcurrent]
    rcases (mem_blockAt_write hcurrent).1 hy with hy | ⟨rfl, rfl⟩
    · have hnot : l ∉ (I.role x).targets := by
        intro hl
        rw [(h.unsealed l (hx.targets l hl).1).2.2 y hy] at hphi
        cases hphi
      rw [h.incoming l y hy hphi a, List.count_eq_zero_of_not_mem hnot, ite_self, Nat.add_zero]
    · have hterm : (I.role y).targets = [] := by
        cases hrole : I.role y with
        | phi | plain => rfl
        | terminator =>
          rw [hrole] at hphi
          cases hphi
      rw [(hx.phi hphi).2.2.2.1 a, hterm, List.count_nil, ite_self, Nat.add_zero]
  case once =>
    refine List.Perm.nodup_iff ((perm_flatten_modify (x := x) ?_ hcurrent).map I.result) |>.2 ?_
    · exact fun b ↦ List.perm_append_singleton x b
    · exact List.nodup_cons.2 ⟨hx.fresh, h.once⟩
  case flow =>
    intro a l hpos
    rcases jumps_write_pos hcurrent hpos with hold | ⟨rfl, hl⟩
    · exact (h.flow a l hold).trans (after_subset_write hcurrent)
    · exact (hx.targets l hl).2.trans (after_subset_write hcurrent)
  case defined =>
    intro l before y rest hblock v hv
    by_cases hlc : l = d.current
    · subst hlc
      rw [blockAt_write_self hcurrent] at hblock
      rcases List.eq_nil_or_concat rest with rfl | ⟨rest, z, rfl⟩
      · obtain ⟨rfl, hxy⟩ := List.append_inj' hblock rfl
        obtain ⟨rfl, -⟩ := List.cons.inj hxy
        exact hx.uses v hv
      · rw [List.concat_eq_append, ← List.cons_append, ← List.append_assoc] at hblock
        obtain ⟨hold, -⟩ := List.append_inj' hblock rfl
        exact h.defined _ before y rest hold v hv
    · rw [blockAt_write_of_ne hlc] at hblock
      exact h.defined l before y rest hblock v hv
  case phiDefined =>
    intro l y hy v a hva
    rcases (mem_blockAt_write hcurrent).1 hy with hy | ⟨rfl, rfl⟩
    · exact after_subset_write hcurrent (h.phiDefined l y hy v a hva)
    · refine after_subset_write hcurrent ?_
      cases hrole : I.role y with
      | phi entries => exact (hx.phi (by rw [hrole]; rfl)).2.2.2.2 v a hva
      | plain | terminator =>
        rw [hrole] at hva
        cases hva
  case kept =>
    exact fun _ ↦ (h.kept hopen).trans (after_subset_write hcurrent)

end Write

/-! ### Blocks -/

/-- The same code, with other values available only in blocks that are empty and that nothing jumps
to. -/
structure SameCode (I : InstructionSet δ ν) (d d' : Draft δ ν) : Prop where
  block : ∀ l, blockAt d'.blocks l = blockAt d.blocks l
  flatten : d'.blocks.flatten = d.blocks.flatten
  length : d.blocks.length ≤ d'.blocks.length
  available : ∀ l, l = 0 ∨ blockAt d.blocks l ≠ [] ∨ (∃ a, 0 < I.jumps d.blocks a l) →
    d'.available l = d.available l

section SameCode

variable {d' : Draft δ ν} {a l : ℕ}

theorem SameCode.jumps (hsame : SameCode I d d') : I.jumps d'.blocks a l = I.jumps d.blocks a l := by
  unfold InstructionSet.jumps
  rw [hsame.block]

/-- A block that jumps is not empty. -/
theorem blockAt_ne_nil_of_jumps (hpos : 0 < I.jumps d.blocks a l) : blockAt d.blocks a ≠ [] := by
  intro hnil
  unfold InstructionSet.jumps at hpos
  rw [hnil] at hpos
  exact lt_irrefl 0 hpos

/-- There is a jump for each entry of a phi. -/
theorem Sound.jumps_of_incoming (h : d.Sound I given) {x : δ} (hx : x ∈ blockAt d.blocks l) {v : ν}
    (hva : (v, a) ∈ (I.role x).incoming) : 0 < I.jumps d.blocks a l := by
  have hphi : (I.role x).isPhi = true := by
    cases hrole : I.role x with
    | phi => rfl
    | plain | terminator =>
      rw [hrole] at hva
      cases hva
  rw [← h.incoming l x hx hphi a]
  exact List.count_pos_iff.2 (List.mem_map_of_mem hva)

theorem SameCode.after (hsame : SameCode I d d') (hnil : blockAt d.blocks l ≠ []) :
    d'.after I given l = d.after I given l := by
  unfold Draft.after InstructionSet.availableAfter
  rw [hsame.block, hsame.available l (.inr (.inl hnil))]

/-- What is left to show where the code stays the same. -/
theorem Sound.of_sameCode (h : d.Sound I given) (hsame : SameCode I d d')
    (hcurrent : d'.isOpen = true → d'.current < d'.blocks.length ∧ d'.status d'.current ≠ .awaited)
    (hunsealed : ∀ l, d'.status l ≠ .sealed → 0 < l ∧ l < d'.blocks.length ∧
      ∀ x ∈ blockAt d.blocks l, (I.role x).isPhi = false)
    (hawaited : ∀ l, d'.status l = .awaited → blockAt d.blocks l = [] ∧ d'.kept ⊆ d'.available l)
    (hclosed : ∀ l < d'.blocks.length, d'.status l ≠ .awaited →
      (d'.isOpen = true → l ≠ d'.current) → I.Closed (blockAt d.blocks l))
    (hopened : d'.isOpen = true →
      ∀ x ∈ blockAt d.blocks d'.current, (I.role x).isTerminator = false)
    (hkept : d'.isOpen = true → d'.kept ⊆ d'.out I given) : d'.Sound I given := by
  have hzero : d'.available 0 = d.available 0 := hsame.available 0 (.inl rfl)
  refine ⟨hcurrent, ?_, ?_, ?_, ?_, ?_, ?_, ?_, ?_, ?_, ?_, ?_, ?_, hkept⟩
  · simpa only [hsame.block] using hunsealed
  · simpa only [hsame.block] using hawaited
  · simpa only [hsame.block] using hclosed
  · simpa only [hsame.block] using hopened
  · intro a l hpos
    obtain ⟨hl, hlt⟩ := h.targets a l (by rwa [← hsame.jumps])
    exact ⟨hl, hlt.trans_le hsame.length⟩
  · simpa only [hsame.block] using h.phisFirst
  · rw [hzero, hsame.block]
    exact h.entry
  · simpa only [hsame.block, hsame.jumps] using h.incoming
  · rw [hsame.flatten]
    exact h.once
  · intro a l hpos
    rw [hsame.jumps] at hpos
    rw [hsame.after (blockAt_ne_nil_of_jumps hpos), hsame.available l (.inr (.inr ⟨a, hpos⟩))]
    exact h.flow a l hpos
  · intro l before x rest hcode v hv
    rw [hsame.block] at hcode
    have hnil : blockAt d.blocks l ≠ [] := by
      rw [hcode]
      exact List.append_ne_nil_of_right_ne_nil _ (List.cons_ne_nil _ _)
    rw [hsame.available l (.inr (.inl hnil))]
    exact h.defined l before x rest hcode v hv
  · intro l x hx v a hva
    rw [hsame.block] at hx
    rw [hsame.after (blockAt_ne_nil_of_jumps (h.jumps_of_incoming hx hva))]
    exact h.phiDefined l x hx v a hva

end SameCode

section Blocks

variable {l : ℕ}

@[simp] theorem length_addBlock : d.addBlock.blocks.length = d.blocks.length + 1 :=
  List.length_append

theorem sameCode_addBlock (h : d.Sound I given) (hpos : 0 < d.blocks.length) :
    SameCode I d d.addBlock where
  block _ := blockAt_append_nil
  flatten := by simp [addBlock]
  length := by rw [length_addBlock]; exact Nat.le_succ _
  available l hl := by
    refine Function.update_of_ne ?_ ..
    rintro rfl
    rcases hl with hl | hl | ⟨a, hl⟩
    · exact (Nat.ne_of_gt hpos) hl
    · exact hl (blockAt_eq_nil le_rfl)
    · exact lt_irrefl _ (h.targets a _ hl).2

theorem Sound.addBlock (h : d.Sound I given) (hopen : d.isOpen = true) :
    d.addBlock.Sound I given := by
  obtain ⟨hcurrent, hstarted⟩ := h.current_lt hopen
  have hpos := Nat.zero_lt_of_lt hcurrent
  have hstatus {l : ℕ} (hl : l ≠ d.blocks.length) : d.addBlock.status l = d.status l :=
    Function.update_of_ne hl ..
  have havailable {l : ℕ} (hl : l ≠ d.blocks.length) : d.addBlock.available l = d.available l :=
    Function.update_of_ne hl ..
  refine h.of_sameCode (sameCode_addBlock h hpos) ?_ ?_ ?_ ?_ ?_ ?_
  · intro _
    rw [length_addBlock]
    refine ⟨Nat.lt_succ_of_lt hcurrent, ?_⟩
    change d.addBlock.status d.current ≠ .awaited
    rw [hstatus (Nat.ne_of_lt hcurrent)]
    exact hstarted
  · intro l hl
    rw [length_addBlock]
    by_cases hlen : l = d.blocks.length
    · subst hlen
      refine ⟨hpos, Nat.lt_succ_self _, ?_⟩
      rw [blockAt_eq_nil le_rfl]
      exact List.forall_mem_nil _
    · rw [hstatus hlen] at hl
      obtain ⟨hl, hlt, hphi⟩ := h.unsealed l hl
      exact ⟨hl, Nat.lt_succ_of_lt hlt, hphi⟩
  · intro l hl
    by_cases hlen : l = d.blocks.length
    · subst hlen
      refine ⟨blockAt_eq_nil le_rfl, ?_⟩
      change d.kept ⊆ Function.update d.available d.blocks.length Set.univ d.blocks.length
      rw [Function.update_self]
      exact Set.subset_univ _
    · rw [hstatus hlen] at hl
      rw [havailable hlen]
      exact h.awaited l hl
  · intro l hl hst hc
    have hlen : l ≠ d.blocks.length := by
      rintro rfl
      exact hst (Function.update_self ..)
    rw [hstatus hlen] at hst
    rw [length_addBlock] at hl
    exact h.closed l (Nat.lt_of_le_of_ne (Nat.le_of_lt_succ hl) hlen) hst hc
  · exact fun _ ↦ h.opened hopen
  · intro _
    change d.kept ⊆ given ∪ d.addBlock.available d.current ∪ I.results (blockAt d.addBlock.blocks d.current)
    rw [havailable (Nat.ne_of_lt hcurrent), (sameCode_addBlock h hpos).block]
    exact h.kept hopen

/-- An awaited block is started after the block before is closed. -/
theorem Sound.start (h : d.Sound I given) (hopen : d.isOpen = false) (hl : d.status l = .awaited)
    {st : BlockStatus} (hst : st ≠ .awaited) : (d.start l st).Sound I given := by
  have hne : d.status l ≠ .sealed := by
    rw [hl]
    exact fun heq ↦ BlockStatus.noConfusion heq
  obtain ⟨hpos, hlt, hphi⟩ := h.unsealed l hne
  obtain ⟨hnil, hkept⟩ := h.awaited l hl
  have hself : (d.start l st).status l = st := Function.update_self ..
  have hother {k : ℕ} (hk : k ≠ l) : (d.start l st).status k = d.status k :=
    Function.update_of_ne hk ..
  refine h.of_sameCode ⟨fun _ ↦ rfl, rfl, le_rfl, fun _ _ ↦ rfl⟩ ?_ ?_ ?_ ?_ ?_ ?_
  · exact fun _ ↦ ⟨hlt, by rwa [← hself] at hst⟩
  · intro k hk
    by_cases hkl : k = l
    · subst hkl
      exact ⟨hpos, hlt, hphi⟩
    · rw [hother hkl] at hk
      exact h.unsealed k hk
  · intro k hk
    by_cases hkl : k = l
    · subst hkl
      exact absurd (hself.symm.trans hk) hst
    · rw [hother hkl] at hk
      exact h.awaited k hk
  · intro k hk hks hkc
    have hkl : k ≠ l := hkc rfl
    rw [hother hkl] at hks
    refine h.closed k hk hks fun hopen' ↦ ?_
    rw [hopen] at hopen'
    cases hopen'
  · intro _
    change ∀ x ∈ blockAt d.blocks l, _
    rw [hnil]
    exact List.forall_mem_nil _
  · exact fun _ ↦ hkept.trans (Set.subset_union_right.trans Set.subset_union_left)

/-- A block that is joined gets no more jumps. -/
theorem Sound.settle (h : d.Sound I given) (hl : d.status l ≠ .awaited) :
    (d.settle l).Sound I given := by
  have hself : (d.settle l).status l = .sealed := Function.update_self ..
  have hother {k : ℕ} (hk : k ≠ l) : (d.settle l).status k = d.status k :=
    Function.update_of_ne hk ..
  have hawaited {k : ℕ} : (d.settle l).status k = .awaited ↔ d.status k = .awaited := by
    by_cases hkl : k = l
    · subst hkl
      rw [hself]
      exact ⟨fun heq ↦ BlockStatus.noConfusion heq, fun heq ↦ absurd heq hl⟩
    · rw [hother hkl]
  refine h.of_sameCode ⟨fun _ ↦ rfl, rfl, le_rfl, fun _ _ ↦ rfl⟩ ?_ ?_ ?_ ?_ h.opened h.kept
  · intro hopen
    obtain ⟨hcurrent, hstarted⟩ := h.current_lt hopen
    exact ⟨hcurrent, fun heq ↦ hstarted (hawaited.1 heq)⟩
  · intro k hk
    by_cases hkl : k = l
    · subst hkl
      exact absurd hself hk
    · rw [hother hkl] at hk
      exact h.unsealed k hk
  · exact fun k hk ↦ h.awaited k (hawaited.1 hk)
  · exact fun k hk hks ↦ h.closed k hk fun heq ↦ hks (hawaited.2 heq)

/-- What is available now may be promised to blocks that nothing jumps to yet. -/
theorem Sound.offer (h : d.Sound I given) (hopen : d.isOpen = true) {ls : List ℕ}
    (hls : ∀ l ∈ ls, d.status l = .awaited ∧ ∀ a, I.jumps d.blocks a l = 0) :
    (d.offer I given ls).Sound I given := by
  obtain ⟨hcurrent, hstarted⟩ := h.current_lt hopen
  have hother {k : ℕ} (hk : k ∉ ls) : (d.offer I given ls).available k = d.available k := if_neg hk
  refine h.of_sameCode ⟨fun _ ↦ rfl, rfl, le_rfl, ?_⟩ h.current_lt h.unsealed ?_ h.closed h.opened ?_
  · intro l hl
    refine hother fun hmem ↦ ?_
    obtain ⟨hst, hjumps⟩ := hls l hmem
    rcases hl with rfl | hl | ⟨a, hl⟩
    · refine lt_irrefl 0 (h.unsealed 0 ?_).1
      rw [hst]
      exact fun heq ↦ BlockStatus.noConfusion heq
    · exact hl (h.awaited l hst).1
    · exact (Nat.ne_of_gt hl) (hjumps a)
  · intro l hl
    refine ⟨(h.awaited l hl).1, ?_⟩
    by_cases hmem : l ∈ ls
    · change d.kept ⊆ if l ∈ ls then d.out I given else d.available l
      rw [if_pos hmem]
      exact h.kept hopen
    · rw [hother hmem]
      exact (h.awaited l hl).2
  · intro _
    have hnot : d.current ∉ ls := fun hmem ↦ hstarted (hls _ hmem).1
    change d.kept ⊆ given ∪ (d.offer I given ls).available d.current ∪ _
    rw [hother hnot]
    exact h.kept hopen

/-- The first block of the code, or one that goes on after the code so far is complete. -/
theorem Sound.enter (h : d.Sound I given) (hopen : d.isOpen = false)
    (hsealed : ∀ l, d.status l = .sealed) : d.enter.Sound I given := by
  have hlength : d.enter.blocks.length = d.blocks.length + 1 := List.length_append
  have hother {l : ℕ} (hl : l ≠ d.blocks.length) : d.enter.available l = d.available l :=
    Function.update_of_ne hl ..
  have hnot {l : ℕ} (hl : d.status l ≠ .sealed) : False := hl (hsealed l)
  have hawaited {l : ℕ} (hl : d.status l = .awaited) : False :=
    hnot (l := l) (by rw [hl]; exact fun heq ↦ BlockStatus.noConfusion heq)
  have hsame : SameCode I d d.enter := by
    refine ⟨fun _ ↦ blockAt_append_nil, ?_, ?_, ?_⟩
    · simp [Draft.enter]
    · rw [hlength]
      exact Nat.le_succ _
    · intro l hl
      by_cases hlen : l = d.blocks.length
      · subst hlen
        rcases hl with hl | hl | ⟨a, hl⟩
        · rw [hl, h.entry.1]
          change Function.update d.available d.blocks.length {_v | d.blocks.length ≠ 0} 0 = ∅
          rw [hl, Function.update_self]
          simp
        · exact absurd (blockAt_eq_nil le_rfl) hl
        · exact absurd (h.targets a _ hl).2 (lt_irrefl _)
      · exact hother hlen
  refine h.of_sameCode hsame ?_ ?_ ?_ ?_ ?_ ?_
  · intro _
    refine ⟨by rw [hlength]; exact Nat.lt_succ_self _, fun heq ↦ hawaited heq⟩
  · exact fun l hl ↦ (hnot hl).elim
  · exact fun l hl ↦ (hawaited hl).elim
  · intro l hl hst hc
    have hlen : l ≠ d.blocks.length := hc rfl
    rw [hlength] at hl
    refine h.closed l (Nat.lt_of_le_of_ne (Nat.le_of_lt_succ hl) hlen) hst fun hopen' ↦ ?_
    rw [hopen] at hopen'
    cases hopen'
  · intro _
    change ∀ x ∈ blockAt d.blocks d.blocks.length, _
    rw [blockAt_eq_nil le_rfl]
    exact List.forall_mem_nil _
  · exact fun _ ↦ Set.empty_subset _

/-- An instruction that uses nothing may be put in front of the entry. -/
theorem Sound.prepend (h : d.Sound I given) (hopen : d.isOpen = true)
    (hsealed : ∀ l, d.status l = .sealed)
    (hcurrent : d.current = 0 ∨ d.available d.current = Set.univ) {x : δ}
    (hrole : I.role x = .plain []) (hfresh : I.result x ∉ d.blocks.flatten.map I.result) :
    (d.prepend I x).Sound I given := by
  have hlt := (h.current_lt hopen).1
  have hpos := Nat.zero_lt_of_lt hlt
  have hlength : (d.prepend I x).blocks.length = d.blocks.length := List.length_modify ..
  have hself : blockAt (d.prepend I x).blocks 0 = x :: blockAt d.blocks 0 := blockAt_modify_self hpos
  have hother {l : ℕ} (hl : l ≠ 0) : blockAt (d.prepend I x).blocks l = blockAt d.blocks l :=
    blockAt_modify_of_ne hl
  have hmem {l : ℕ} {y : δ} : y ∈ blockAt (d.prepend I x).blocks l ↔
      y ∈ blockAt d.blocks l ∨ l = 0 ∧ y = x := by
    by_cases hl : l = 0
    · subst hl
      rw [hself, List.mem_cons, or_comm]
      simp
    · rw [hother hl]
      simp [hl]
  have hjumps (a l : ℕ) : I.jumps (d.prepend I x).blocks a l = I.jumps d.blocks a l := by
    unfold InstructionSet.jumps
    by_cases ha : a = 0
    · subst ha
      rw [hself, List.flatMap_cons, hrole]
      rfl
    · rw [hother ha]
  have hafter (l : ℕ) : d.after I given l ⊆ (d.prepend I x).after I given l :=
    Set.union_subset_union_right _ (InstructionSet.results_mono fun _ hy ↦ hmem.2 (.inl hy))
  have hphi : (I.role x).isPhi = false := by rw [hrole]; rfl
  have hterm : (I.role x).isTerminator = false := by rw [hrole]; rfl
  constructor
  case current_lt => exact fun hopen ↦ ⟨by rw [hlength]; exact hlt, (h.current_lt hopen).2⟩
  case unsealed => exact fun l hl ↦ absurd (hsealed l) hl
  case awaited =>
    intro l hl
    change d.status l = .awaited at hl
    rw [hsealed l] at hl
    cases hl
  case closed =>
    intro l hl hst hc
    rw [hlength] at hl
    have hclosed := h.closed l hl hst hc
    by_cases hl0 : l = 0
    · subst hl0
      obtain ⟨body, last, heq, hlast, hbody⟩ := hclosed
      refine ⟨x :: body, last, by rw [hself, heq, List.cons_append], hlast, ?_⟩
      exact List.forall_mem_cons.2 ⟨hterm, hbody⟩
    · rwa [hother hl0]
  case opened =>
    intro _ y hy
    rcases hmem.1 hy with hy | ⟨-, rfl⟩
    · exact h.opened hopen y hy
    · exact hterm
  case targets =>
    intro a l hpos
    rw [hjumps] at hpos
    rw [hlength]
    exact h.targets a l hpos
  case phisFirst =>
    intro l
    by_cases hl0 : l = 0
    · subst hl0
      rw [hself]
      refine List.pairwise_cons.2 ⟨fun y hy hyphi ↦ ?_, h.phisFirst 0⟩
      rw [h.entry.2 y hy] at hyphi
      cases hyphi
    · rw [hother hl0]
      exact h.phisFirst l
  case entry =>
    refine ⟨h.entry.1, fun y hy ↦ ?_⟩
    rcases hmem.1 hy with hy | ⟨-, rfl⟩
    · exact h.entry.2 y hy
    · exact hphi
  case incoming =>
    intro l y hy hyphi a
    rw [hjumps]
    rcases hmem.1 hy with hy | ⟨-, rfl⟩
    · exact h.incoming l y hy hyphi a
    · rw [hphi] at hyphi
      cases hyphi
  case once =>
    refine List.Perm.nodup_iff ((perm_flatten_modify (x := x) ?_ hpos).map I.result) |>.2 ?_
    · exact fun b ↦ List.Perm.refl _
    · exact List.nodup_cons.2 ⟨hfresh, h.once⟩
  case flow =>
    intro a l hpos
    rw [hjumps] at hpos
    exact (h.flow a l hpos).trans (hafter a)
  case defined =>
    intro l before y rest hcode v hv
    by_cases hl0 : l = 0
    · subst hl0
      rw [hself] at hcode
      cases before with
      | nil =>
        obtain ⟨rfl, -⟩ := List.cons.inj hcode
        rw [hrole] at hv
        cases hv
      | cons z before =>
        obtain ⟨rfl, hrest⟩ := List.cons.inj hcode
        rcases h.defined 0 before y rest hrest v hv with hv | hv
        · exact .inl hv
        · exact .inr (InstructionSet.results_mono (fun _ ↦ List.mem_cons_of_mem _) hv)
    · rw [hother hl0] at hcode
      exact h.defined l before y rest hcode v hv
  case phiDefined =>
    intro l y hy v a hva
    rcases hmem.1 hy with hy | ⟨-, rfl⟩
    · exact hafter a (h.phiDefined l y hy v a hva)
    · rw [hrole] at hva
      cases hva
  case kept =>
    intro _
    refine Set.insert_subset ?_ ((h.kept hopen).trans (hafter _))
    rcases hcurrent with hzero | huniv
    · refine .inr ?_
      change I.result x ∈ I.results (blockAt (d.prepend I x).blocks d.current)
      rw [hzero, hself]
      exact InstructionSet.mem_results List.mem_cons_self
    · refine .inl (.inr ?_)
      change I.result x ∈ d.available d.current
      rw [huniv]
      exact Set.mem_univ _

end Blocks

end Draft

end Sipc.Library
