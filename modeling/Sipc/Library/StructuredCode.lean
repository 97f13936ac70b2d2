import Sipc.Library.BlockBuilder

/-!
# Rules for structured code

Code for a part of a program takes a draft `d` to a draft `d'` that goes on where the part ends, with
all the blocks of `d` as they were (`Draft.Extends`). The rules are about parts made of other parts,
for which blocks are made before they are filled: a loop with its header, body and exit, and a choice
whose branches meet. Each rule is about one terminator and the block that is written next, and
`Draft.Stage` says in between how far the blocks of the part are.
-/

set_option autoImplicit false
set_option relaxedAutoImplicit false

namespace Sipc.Library.Draft

variable {δ ν : Type} (I : InstructionSet δ ν) (given : Set ν)

/-- The blocks below `n` are as they were, apart from instructions that were added. -/
structure Frame (n : ℕ) (d d' : Draft δ ν) : Prop where
  length : d.blocks.length ≤ d'.blocks.length
  status : ∀ l < n, d'.status l = d.status l
  available : ∀ l < n, d'.available l = d.available l
  jumps : ∀ l < n, ∀ a, I.jumps d'.blocks a l = I.jumps d.blocks a l
  after : ∀ l < n, d.after I given l ⊆ d'.after I given l
  kept : d'.kept = d.kept

/-- Code was added that goes on at its end, and whose own blocks are finished. -/
structure Extends (d d' : Draft δ ν) : Prop extends Frame I given d.blocks.length d d' where
  isOpen : d'.isOpen = true
  statuses : d'.status = d.status
  out : d.out I given ⊆ d'.out I given

/-- The blocks that were made first after `d₀` have these statuses, and all others are finished. -/
structure Stage (d₀ : Draft δ ν) (sts : List BlockStatus) (d : Draft δ ν) : Prop
    extends Frame I given d₀.blocks.length d₀ d where
  isOpen : d.isOpen = true
  added : d₀.blocks.length + sts.length ≤ d.blocks.length
  statuses : ∀ i, d.status (d₀.blocks.length + i) = sts.getD i .sealed

variable {I given} {d d' d'' d₀ : Draft δ ν} {n : ℕ}

theorem Frame.refl (n : ℕ) (d : Draft δ ν) : Frame I given n d d :=
  ⟨le_rfl, fun _ _ ↦ rfl, fun _ _ ↦ rfl, fun _ _ _ ↦ rfl, fun _ _ ↦ subset_rfl, rfl⟩

theorem Frame.trans (h : Frame I given n d d') (h' : Frame I given n d' d'') :
    Frame I given n d d'' where
  length := h.length.trans h'.length
  status l hl := (h'.status l hl).trans (h.status l hl)
  available l hl := (h'.available l hl).trans (h.available l hl)
  jumps l hl a := (h'.jumps l hl a).trans (h.jumps l hl a)
  after l hl := (h.after l hl).trans (h'.after l hl)
  kept := h'.kept.trans h.kept

theorem Frame.mono {m : ℕ} (h : Frame I given m d d') (hn : n ≤ m) : Frame I given n d d' where
  length := h.length
  status l hl := h.status l (hl.trans_le hn)
  available l hl := h.available l (hl.trans_le hn)
  jumps l hl := h.jumps l (hl.trans_le hn)
  after l hl := h.after l (hl.trans_le hn)
  kept := h.kept

theorem Extends.refl (h : d.isOpen = true) : Extends I given d d :=
  ⟨.refl _ d, h, rfl, subset_rfl⟩

theorem Extends.trans (h : Extends I given d d') (h' : Extends I given d' d'') :
    Extends I given d d'' :=
  ⟨h.toFrame.trans (h'.toFrame.mono h.length), h'.isOpen, h'.statuses.trans h.statuses,
    h.out.trans h'.out⟩

/-! ### Frames of the operations -/

section Operations

variable {x : δ} {l : ℕ} {ls : List ℕ} {st : BlockStatus}

theorem frame_write (hcurrent : d.current < d.blocks.length)
    (hn : ∀ t ∈ (I.role x).targets, n ≤ t) : Frame I given n d (d.write I x) where
  length := by rw [length_write]
  status _ _ := rfl
  available _ _ := rfl
  jumps l hl a := by
    have hnot : l ∉ (I.role x).targets := fun hmem ↦ absurd (hn l hmem) (Nat.not_le_of_lt hl)
    rw [jumps_write hcurrent, List.count_eq_zero_of_not_mem hnot, ite_self, Nat.add_zero]
  after _ _ := after_subset_write hcurrent
  kept := rfl

theorem frame_addBlock (hn : n ≤ d.blocks.length) : Frame I given n d d.addBlock where
  length := by
    rw [length_addBlock]
    exact Nat.le_succ _
  status l hl := Function.update_of_ne (Nat.ne_of_lt (hl.trans_le hn)) ..
  available l hl := Function.update_of_ne (Nat.ne_of_lt (hl.trans_le hn)) ..
  jumps l _ a := by
    unfold InstructionSet.jumps
    rw [show blockAt d.addBlock.blocks a = blockAt d.blocks a from blockAt_append_nil]
  after l hl := by
    unfold Draft.after InstructionSet.availableAfter
    rw [show blockAt d.addBlock.blocks l = blockAt d.blocks l from blockAt_append_nil,
      show d.addBlock.available l = d.available l from
        Function.update_of_ne (Nat.ne_of_lt (hl.trans_le hn)) ..]
  kept := rfl

theorem frame_start (hn : n ≤ l) : Frame I given n d (d.start l st) where
  length := le_rfl
  status _ hk := Function.update_of_ne (Nat.ne_of_lt (hk.trans_le hn)) ..
  available _ _ := rfl
  jumps _ _ _ := rfl
  after _ _ := subset_rfl
  kept := rfl

theorem frame_settle (hn : n ≤ l) : Frame I given n d (d.settle l) where
  length := le_rfl
  status _ hk := Function.update_of_ne (Nat.ne_of_lt (hk.trans_le hn)) ..
  available _ _ := rfl
  jumps _ _ _ := rfl
  after _ _ := subset_rfl
  kept := rfl

theorem available_offer_of_not_mem (hl : l ∉ ls) :
    (d.offer I given ls).available l = d.available l :=
  if_neg hl

theorem after_offer (hl : l ∉ ls) : (d.offer I given ls).after I given l = d.after I given l := by
  unfold Draft.after InstructionSet.availableAfter
  rw [available_offer_of_not_mem hl]
  rfl

theorem frame_offer (hn : ∀ l ∈ ls, n ≤ l) : Frame I given n d (d.offer I given ls) where
  length := le_rfl
  status _ _ := rfl
  available k hk := available_offer_of_not_mem fun hmem ↦ absurd (hn k hmem) (Nat.not_le_of_lt hk)
  jumps _ _ _ := rfl
  after k hk := by
    rw [after_offer fun hmem ↦ absurd (hn k hmem) (Nat.not_le_of_lt hk)]
  kept := rfl

theorem subset_out : given ⊆ d.out I given :=
  Set.subset_union_left.trans Set.subset_union_left

/-- An instruction that is no terminator. -/
theorem Sound.extends_write (h : d.Sound I given) (hopen : d.isOpen = true)
    (hx : (I.role x).isTerminator = false) : Extends I given d (d.write I x) where
  toFrame := frame_write (h.current_lt hopen).1 (by
    rw [Role.targets_eq_nil hx]
    exact List.forall_mem_nil _)
  isOpen := by
    change (d.isOpen && !(I.role x).isTerminator) = true
    rw [hopen, hx]
    rfl
  statuses := rfl
  out := after_subset_write (h.current_lt hopen).1

end Operations

/-! ### Branches -/

section Branch

variable {x : δ} {l : ℕ} {ls ts : List ℕ} {vs : List ν} {st : BlockStatus}

variable (I given d) in
/-- The terminator may end the current block, when the blocks in `ls` are promised what is there. -/
structure Ends (ls : List ℕ) (x : δ) (ts : List ℕ) : Prop where
  role : ∃ vs, I.role x = .terminator vs ts ∧ ∀ v ∈ vs, v ∈ d.out I given
  fresh : I.result x ∉ d.blocks.flatten.map I.result
  promised : ∀ l ∈ ls, d.status l = .awaited ∧ ∀ a, I.jumps d.blocks a l = 0
  joined : ∀ t ∈ ts, t ∉ ls → d.status t ≠ .sealed ∧ d.available t ⊆ d.out I given

theorem Ends.current_not_mem (hx : d.Ends I given ls x ts) (h : d.Sound I given)
    (hopen : d.isOpen = true) : d.current ∉ ls :=
  fun hmem ↦ (h.current_lt hopen).2 (hx.promised _ hmem).1

theorem out_offer (hcurrent : d.current ∉ ls) :
    (d.offer I given ls).out I given = d.out I given :=
  after_offer hcurrent

theorem Sound.branch (h : d.Sound I given) (hopen : d.isOpen = true) (hx : d.Ends I given ls x ts)
    (hl : d.status l = .awaited) (hst : st ≠ .awaited) :
    (d.branch I given ls x l st).Sound I given := by
  obtain ⟨vs, hrole, hvs⟩ := hx.role
  have hout : (d.offer I given ls).out I given = d.out I given :=
    out_offer (hx.current_not_mem h hopen)
  have hoffer := h.offer hopen hx.promised
  refine (hoffer.write hopen ⟨?_, hx.fresh, ?_, ?_⟩).start ?_ hl hst
  · rw [hrole, hout]
    exact hvs
  · rw [hrole, hout]
    intro t ht
    by_cases hmem : t ∈ ls
    · refine ⟨?_, ?_⟩
      · change d.status t ≠ .sealed
        rw [(hx.promised t hmem).1]
        exact fun heq ↦ BlockStatus.noConfusion heq
      · change (if t ∈ ls then d.out I given else d.available t) ⊆ _
        rw [if_pos hmem]
    · rw [available_offer_of_not_mem hmem]
      exact hx.joined t ht hmem
  · intro hphi
    rw [hrole] at hphi
    cases hphi
  · change (d.isOpen && !(I.role x).isTerminator) = false
    rw [hrole, hopen]
    rfl

theorem frame_branch (h : d.Sound I given) (hopen : d.isOpen = true) (hx : d.Ends I given ls x ts)
    (hls : ∀ l ∈ ls, n ≤ l) (hts : ∀ t ∈ ts, n ≤ t) (hl : n ≤ l) :
    Frame I given n d (d.branch I given ls x l st) := by
  obtain ⟨vs, hrole, -⟩ := hx.role
  have hwrite : Frame I given n (d.offer I given ls) ((d.offer I given ls).write I x) := by
    refine frame_write (h.current_lt hopen).1 ?_
    rw [hrole]
    exact hts
  exact ((frame_offer hls).trans hwrite).trans (frame_start hl)

theorem jumps_branch (h : d.Sound I given) (hopen : d.isOpen = true) (hx : d.Ends I given ls x ts)
    (a k : ℕ) : I.jumps (d.branch I given ls x l st).blocks a k =
      I.jumps d.blocks a k + if a = d.current then ts.count k else 0 := by
  obtain ⟨vs, hrole, -⟩ := hx.role
  change I.jumps (d.write I x).blocks a k = _
  rw [jumps_write (h.current_lt hopen).1, hrole]
  rfl

theorem available_branch (k : ℕ) : (d.branch I given ls x l st).available k =
    if k ∈ ls then d.out I given else d.available k :=
  rfl

theorem after_subset_branch (h : d.Sound I given) (hopen : d.isOpen = true) {k : ℕ} (hk : k ∉ ls) :
    d.after I given k ⊆ (d.branch I given ls x l st).after I given k := by
  rw [← after_offer hk]
  exact after_subset_write (d := d.offer I given ls) (h.current_lt hopen).1

/-- What was available is available at the end of the block that is left. -/
theorem out_subset_after_branch (h : d.Sound I given) (hopen : d.isOpen = true)
    (hx : d.Ends I given ls x ts) :
    d.out I given ⊆ (d.branch I given ls x l st).after I given d.current := by
  exact after_subset_branch h hopen (hx.current_not_mem h hopen)

theorem blockAt_branch (h : d.Sound I given) (hopen : d.isOpen = true)
    (hl : d.status l = .awaited) : blockAt (d.branch I given ls x l st).blocks l = [] := by
  have hne : l ≠ d.current := by
    rintro rfl
    exact (h.current_lt hopen).2 hl
  change blockAt (d.write I x).blocks l = []
  rw [blockAt_write_of_ne hne]
  exact (h.awaited l hl).1

theorem out_branch (h : d.Sound I given) (hopen : d.isOpen = true) (hl : d.status l = .awaited) :
    (d.branch I given ls x l st).out I given =
      given ∪ if l ∈ ls then d.out I given else d.available l := by
  change given ∪ (d.branch I given ls x l st).available l ∪
    I.results (blockAt (d.branch I given ls x l st).blocks l) = _
  rw [blockAt_branch h hopen hl, InstructionSet.results_nil, Set.union_empty]
  rfl

/-- In a block that was promised what was there, it is there. -/
theorem out_branch_of_mem (h : d.Sound I given) (hopen : d.isOpen = true)
    (hl : d.status l = .awaited) (hmem : l ∈ ls) :
    (d.branch I given ls x l st).out I given = d.out I given := by
  rw [out_branch h hopen hl, if_pos hmem, Set.union_eq_right.2 subset_out]

theorem available_subset_out_branch (h : d.Sound I given) (hopen : d.isOpen = true)
    (hl : d.status l = .awaited) (hmem : l ∉ ls) :
    d.available l ⊆ (d.branch I given ls x l st).out I given := by
  rw [out_branch h hopen hl, if_neg hmem]
  exact Set.subset_union_right

end Branch

/-! ### Stages -/

section Stage

variable {x : δ} {i : ℕ} {ls ts : List ℕ} {st : BlockStatus} {sts : List BlockStatus}

theorem Stage.extends (hs : Stage I given d₀ sts d) (hext : Extends I given d d') :
    Stage I given d₀ sts d' where
  toFrame := hs.toFrame.trans (hext.toFrame.mono hs.length)
  isOpen := hext.isOpen
  added := hs.added.trans hext.length
  statuses i := by
    rw [hext.statuses]
    exact hs.statuses i

theorem Stage.branch (hs : Stage I given d₀ sts d) (h : d.Sound I given)
    (hx : d.Ends I given ls x ts) (hls : ∀ l ∈ ls, d₀.blocks.length ≤ l)
    (hts : ∀ t ∈ ts, d₀.blocks.length ≤ t) (hi : i < sts.length) :
    Stage I given d₀ (sts.set i st) (d.branch I given ls x (d₀.blocks.length + i) st) where
  toFrame := hs.toFrame.trans (frame_branch h hs.isOpen hx hls hts (Nat.le_add_right _ _))
  isOpen := rfl
  added := by
    rw [List.length_set]
    exact hs.added.trans (frame_branch (n := 0) h hs.isOpen hx (fun _ _ ↦ Nat.zero_le _)
      (fun _ _ ↦ Nat.zero_le _) (Nat.zero_le _)).length
  statuses k := by
    change Function.update d.status (d₀.blocks.length + i) st (d₀.blocks.length + k) = _
    by_cases hk : k = i
    · subst hk
      rw [Function.update_self, List.getD_eq_getElem?_getD, List.getElem?_set_self hi]
      rfl
    · rw [Function.update_of_ne (fun heq ↦ hk (Nat.add_left_cancel heq)), hs.statuses,
        List.getD_eq_getElem?_getD, List.getD_eq_getElem?_getD,
        List.getElem?_set_ne (fun heq ↦ hk heq.symm)]

theorem Stage.settle (hs : Stage I given d₀ sts d) (hi : i < sts.length) :
    Stage I given d₀ (sts.set i .sealed) (d.settle (d₀.blocks.length + i)) where
  toFrame := hs.toFrame.trans (frame_settle (Nat.le_add_right _ _))
  isOpen := hs.isOpen
  added := by
    rw [List.length_set]
    exact hs.added
  statuses k := by
    change Function.update d.status (d₀.blocks.length + i) .sealed (d₀.blocks.length + k) = _
    by_cases hk : k = i
    · subst hk
      rw [Function.update_self, List.getD_eq_getElem?_getD, List.getElem?_set_self hi]
      rfl
    · rw [Function.update_of_ne (fun heq ↦ hk (Nat.add_left_cancel heq)), hs.statuses,
        List.getD_eq_getElem?_getD, List.getD_eq_getElem?_getD,
        List.getElem?_set_ne (fun heq ↦ hk heq.symm)]

/-- A part whose blocks are all finished. -/
theorem Stage.finish (hs : Stage I given d₀ sts d) (h₀ : d₀.Sound I given)
    (hsealed : ∀ st ∈ sts, st = .sealed) (hout : d₀.out I given ⊆ d.out I given) :
    Extends I given d₀ d where
  toFrame := hs.toFrame
  isOpen := hs.isOpen
  out := hout
  statuses := by
    funext l
    by_cases hl : l < d₀.blocks.length
    · exact hs.status l hl
    · obtain ⟨i, rfl⟩ := Nat.exists_eq_add_of_le (Nat.le_of_not_lt hl)
      have hold : d₀.status (d₀.blocks.length + i) = .sealed := by
        by_contra hne
        exact hl (h₀.unsealed _ hne).2.1
      rw [hs.statuses, hold, List.getD_eq_getElem?_getD]
      cases hget : sts[i]? with
      | none => rfl
      | some st => exact hsealed st (List.mem_of_getElem? hget)

end Stage

/-! ### Three blocks -/

section Three

variable {x : δ} {rest : Set ν}

/-- Three blocks have been made, and nothing jumps to them yet. -/
structure Prepared (I : InstructionSet δ ν) (given : Set ν) (d₀ d : Draft δ ν) : Prop
    extends Stage I given d₀ [.awaited, .awaited, .awaited] d where
  unjumped : ∀ i < 3, ∀ a, I.jumps d.blocks a (d₀.blocks.length + i) = 0
  out : d₀.out I given ⊆ d.out I given

theorem prepared_addBlock (h : d.Sound I given) (hopen : d.isOpen = true) :
    d.addBlock.addBlock.addBlock.Sound I given ∧
      Prepared I given d d.addBlock.addBlock.addBlock := by
  have h₁ := h.addBlock hopen
  have h₂ := h₁.addBlock hopen
  have hcurrent := (h.current_lt hopen).1
  have hlength₁ : d.addBlock.blocks.length = d.blocks.length + 1 := length_addBlock
  have hlength₂ : d.addBlock.addBlock.blocks.length = d.blocks.length + 2 := by
    rw [length_addBlock, hlength₁]
  have hframe : Frame I given d.blocks.length d d.addBlock.addBlock.addBlock :=
    ((frame_addBlock le_rfl).trans (frame_addBlock (by omega))).trans (frame_addBlock (by omega))
  refine ⟨h₂.addBlock hopen, ⟨hframe, hopen, ?_, ?_⟩, ?_, hframe.after _ hcurrent⟩
  · rw [length_addBlock, hlength₂]
    exact le_rfl
  · intro i
    have hsealed (k : ℕ) : d.status (d.blocks.length + k) = .sealed := by
      by_contra hne
      exact absurd (h.unsealed _ hne).2.1 (by omega)
    change Function.update (Function.update (Function.update d.status d.blocks.length .awaited)
      d.addBlock.blocks.length .awaited) d.addBlock.addBlock.blocks.length .awaited _ = _
    rw [hlength₁, hlength₂]
    rcases i with _ | _ | _ | i
    · simp
    · simp
    · simp
    · rw [Function.update_of_ne (by omega), Function.update_of_ne (by omega),
        Function.update_of_ne (by omega), hsealed]
      rfl
  · intro i _ a
    by_contra hne
    have hjumps : I.jumps d.addBlock.addBlock.addBlock.blocks a (d.blocks.length + i) =
        I.jumps d.blocks a (d.blocks.length + i) := by
      unfold InstructionSet.jumps
      rw [show blockAt d.addBlock.addBlock.addBlock.blocks a = blockAt d.blocks a from
        blockAt_append_nil.trans (blockAt_append_nil.trans blockAt_append_nil)]
    rw [hjumps] at hne
    exact absurd (h.targets a _ (Nat.pos_of_ne_zero hne)).2 (by omega)

theorem Prepared.extends (hp : Prepared I given d₀ d) (hext : Extends I given d d') :
    Prepared I given d₀ d' where
  toStage := hp.toStage.extends hext
  unjumped i hi a := by
    have hadded := hp.added
    rw [hext.jumps _ (by simp only [List.length_cons, List.length_nil] at hadded; omega)]
    exact hp.unjumped i hi a
  out := hp.out.trans hext.out

/-! ### Loops -/

/-- The header of a loop is being written. -/
structure InHeader (I : InstructionSet δ ν) (given : Set ν) (d₀ d : Draft δ ν) : Prop
    extends Stage I given d₀ [.joined, .awaited, .awaited] d where
  unjumped : ∀ i, 0 < i → i < 3 → ∀ a, I.jumps d.blocks a (d₀.blocks.length + i) = 0
  again : d.available d₀.blocks.length ⊆ d.out I given
  out : d₀.out I given ⊆ d.out I given

/-- The body of a loop is being written. After it, `rest` is to be available. -/
structure InBody (I : InstructionSet δ ν) (given : Set ν) (d₀ d : Draft δ ν) (rest : Set ν) : Prop
    extends Stage I given d₀ [.joined, .sealed, .awaited] d where
  again : d.available d₀.blocks.length ⊆ d.out I given
  rest_subset : rest ⊆ d.available (d₀.blocks.length + 2)
  out : d₀.out I given ⊆ rest

theorem InHeader.extends (hp : InHeader I given d₀ d) (hext : Extends I given d d') :
    InHeader I given d₀ d' where
  toStage := hp.toStage.extends hext
  unjumped i hpos hi a := by
    have hadded := hp.added
    rw [hext.jumps _ (by simp only [List.length_cons, List.length_nil] at hadded; omega)]
    exact hp.unjumped i hpos hi a
  again := by
    have hadded := hp.added
    rw [hext.available _ (by simp only [List.length_cons, List.length_nil] at hadded; omega)]
    exact hp.again.trans hext.out
  out := hp.out.trans hext.out

theorem InBody.extends (hp : InBody I given d₀ d rest) (hext : Extends I given d d') :
    InBody I given d₀ d' rest where
  toStage := hp.toStage.extends hext
  again := by
    have hadded := hp.added
    rw [hext.available _ (by simp only [List.length_cons, List.length_nil] at hadded; omega)]
    exact hp.again.trans hext.out
  rest_subset := by
    have hadded := hp.added
    rw [hext.available _ (by simp only [List.length_cons, List.length_nil] at hadded; omega)]
    exact hp.rest_subset
  out := hp.out

/-- The jump to the header. -/
theorem Prepared.enterHeader (hp : Prepared I given d₀ d) (h : d.Sound I given)
    (hrole : I.role x = .terminator [] [d₀.blocks.length])
    (hfresh : I.result x ∉ d.blocks.flatten.map I.result) :
    let d' := d.branch I given [d₀.blocks.length] x d₀.blocks.length .joined
    d'.Sound I given ∧ InHeader I given d₀ d' ∧ d'.out I given = d.out I given := by
  have hawaited : d.status d₀.blocks.length = .awaited := hp.statuses 0
  have hx : d.Ends I given [d₀.blocks.length] x [d₀.blocks.length] := by
    refine ⟨⟨[], hrole, List.forall_mem_nil _⟩, hfresh, ?_, ?_⟩
    · exact List.forall_mem_singleton.2 ⟨hawaited, hp.unjumped 0 (by decide)⟩
    · exact fun t ht hnot ↦ absurd ht hnot
  have hout : (d.branch I given [d₀.blocks.length] x d₀.blocks.length .joined).out I given =
      d.out I given :=
    out_branch_of_mem h hp.isOpen hawaited (List.mem_singleton_self _)
  have hle : ∀ l ∈ [d₀.blocks.length], d₀.blocks.length ≤ l :=
    List.forall_mem_singleton.2 le_rfl
  refine ⟨h.branch hp.isOpen hx hawaited (fun heq ↦ BlockStatus.noConfusion heq),
    ⟨hp.toStage.branch (i := 0) h hx hle hle (by decide), ?_, ?_, ?_⟩, hout⟩
  · intro i hpos hi a
    have hnot : d₀.blocks.length + i ∉ [d₀.blocks.length] := by
      rw [List.mem_singleton]
      omega
    rw [jumps_branch h hp.isOpen hx, hp.unjumped i hi, List.count_eq_zero_of_not_mem hnot, ite_self]
  · rw [hout, available_branch, if_pos (List.mem_singleton_self _)]
  · rw [hout]
    exact hp.out

/-- The branch to the body or the exit. -/
theorem InHeader.enterBody (hp : InHeader I given d₀ d) (h : d.Sound I given) {vs : List ν}
    (hrole : I.role x = .terminator vs [d₀.blocks.length + 1, d₀.blocks.length + 2])
    (hvs : ∀ v ∈ vs, v ∈ d.out I given) (hfresh : I.result x ∉ d.blocks.flatten.map I.result) :
    let d' := d.branch I given [d₀.blocks.length + 1, d₀.blocks.length + 2] x
      (d₀.blocks.length + 1) .sealed
    d'.Sound I given ∧ InBody I given d₀ d' (d.out I given) ∧ d'.out I given = d.out I given := by
  have hbody : d.status (d₀.blocks.length + 1) = .awaited := hp.statuses 1
  have hexit : d.status (d₀.blocks.length + 2) = .awaited := hp.statuses 2
  have hx : d.Ends I given [d₀.blocks.length + 1, d₀.blocks.length + 2] x
      [d₀.blocks.length + 1, d₀.blocks.length + 2] := by
    refine ⟨⟨vs, hrole, hvs⟩, hfresh, ?_, fun t ht hnot ↦ absurd ht hnot⟩
    exact List.forall_mem_cons.2 ⟨⟨hbody, hp.unjumped 1 (by decide) (by decide)⟩,
      List.forall_mem_singleton.2 ⟨hexit, hp.unjumped 2 (by decide) (by decide)⟩⟩
  have hout : (d.branch I given [d₀.blocks.length + 1, d₀.blocks.length + 2] x
      (d₀.blocks.length + 1) .sealed).out I given = d.out I given :=
    out_branch_of_mem h hp.isOpen hbody List.mem_cons_self
  have hle : ∀ l ∈ [d₀.blocks.length + 1, d₀.blocks.length + 2], d₀.blocks.length ≤ l :=
    List.forall_mem_cons.2 ⟨Nat.le_add_right _ _,
      List.forall_mem_singleton.2 (Nat.le_add_right _ _)⟩
  refine ⟨h.branch hp.isOpen hx hbody (fun heq ↦ BlockStatus.noConfusion heq),
    ⟨hp.toStage.branch (i := 1) h hx hle hle (by decide), ?_, ?_, hp.out⟩, hout⟩
  · have hnot : d₀.blocks.length ∉ [d₀.blocks.length + 1, d₀.blocks.length + 2] := by
      simp only [List.mem_cons, List.not_mem_nil, or_false]
      omega
    rw [hout, available_branch, if_neg hnot]
    exact hp.again
  · rw [available_branch, if_pos (List.mem_cons_of_mem _ (List.mem_singleton_self _))]

/-- The jump back, after which the code goes on in the exit. -/
theorem InBody.leave (hp : InBody I given d₀ d rest) (h₀ : d₀.Sound I given) (h : d.Sound I given)
    (hrole : I.role x = .terminator [] [d₀.blocks.length])
    (hfresh : I.result x ∉ d.blocks.flatten.map I.result) :
    let d' := (d.branch I given [] x (d₀.blocks.length + 2) .sealed).settle d₀.blocks.length
    d'.Sound I given ∧ Extends I given d₀ d' ∧ rest ⊆ d'.out I given := by
  have hheader : d.status d₀.blocks.length = .joined := hp.statuses 0
  have hexit : d.status (d₀.blocks.length + 2) = .awaited := hp.statuses 2
  have hx : d.Ends I given [] x [d₀.blocks.length] := by
    refine ⟨⟨[], hrole, List.forall_mem_nil _⟩, hfresh, List.forall_mem_nil _, ?_⟩
    refine List.forall_mem_singleton.2 fun _ ↦ ⟨?_, hp.again⟩
    rw [hheader]
    exact fun heq ↦ BlockStatus.noConfusion heq
  have hle : ∀ t ∈ [d₀.blocks.length], d₀.blocks.length ≤ t := List.forall_mem_singleton.2 le_rfl
  have hbranch : Stage I given d₀ [.joined, .sealed, .sealed]
      (d.branch I given [] x (d₀.blocks.length + 2) .sealed) :=
    hp.toStage.branch (i := 2) h hx (List.forall_mem_nil _) hle (by decide)
  have hstage := hbranch.settle (i := 0) (by decide)
  have hrest : rest ⊆ (d.branch I given [] x (d₀.blocks.length + 2) .sealed).out I given :=
    hp.rest_subset.trans (available_subset_out_branch h hp.isOpen hexit List.not_mem_nil)
  refine ⟨(h.branch hp.isOpen hx hexit (fun heq ↦ BlockStatus.noConfusion heq)).settle ?_,
    hstage.finish h₀ ?_ (hp.out.trans hrest), hrest⟩
  · change Function.update d.status (d₀.blocks.length + 2) .sealed d₀.blocks.length ≠ .awaited
    rw [Function.update_of_ne (by omega), hheader]
    exact fun heq ↦ BlockStatus.noConfusion heq
  · simp [List.set]

/-! ### Choices -/

variable (I given) in
/-- The first branch of a choice is being written, and `rest` is there in the others. -/
structure InThen (d₀ d : Draft δ ν) (rest : Set ν) : Prop
    extends Stage I given d₀ [.sealed, .awaited, .awaited] d where
  unjumped : ∀ a, I.jumps d.blocks a (d₀.blocks.length + 2) = 0
  other : d.available (d₀.blocks.length + 1) = rest
  meeting : d.available (d₀.blocks.length + 2) = rest
  rest_subset : rest ⊆ d.out I given
  out : d₀.out I given ⊆ rest

variable (I given) in
/-- The second branch of a choice is being written. The first one ended in the block `last`, where
`vals` are available. -/
structure InElse (d₀ d : Draft δ ν) (rest : Set ν) (last : ℕ) (vals : Set ν) : Prop
    extends Stage I given d₀ [.sealed, .sealed, .awaited] d where
  arrivals : ∀ a, I.jumps d.blocks a (d₀.blocks.length + 2) = if a = last then 1 else 0
  last_lt : last < d.blocks.length
  last_after : vals ⊆ d.after I given last
  meeting : d.available (d₀.blocks.length + 2) = rest
  rest_subset : rest ⊆ d.out I given
  out : d₀.out I given ⊆ rest

variable (I given) in
/-- The branches of a choice meet in an empty block. -/
structure Meets (d₀ d : Draft δ ν) (last : ℕ) (vals : Set ν) (last' : ℕ) (vals' : Set ν) :
    Prop extends Extends I given d₀ d where
  current : d.current = d₀.blocks.length + 2
  empty : blockAt d.blocks d.current = []
  arrivals : ∀ a, I.jumps d.blocks a d.current =
    (if a = last then 1 else 0) + if a = last' then 1 else 0
  last_after : vals ⊆ d.after I given last
  last_after' : vals' ⊆ d.after I given last'

variable {last : ℕ} {vals : Set ν}

theorem InThen.extends (hp : InThen I given d₀ d rest) (hext : Extends I given d d') :
    InThen I given d₀ d' rest := by
  have hadded := hp.added
  simp only [List.length_cons, List.length_nil] at hadded
  refine ⟨hp.toStage.extends hext, fun a ↦ ?_, ?_, ?_, hp.rest_subset.trans hext.out, hp.out⟩
  · rw [hext.jumps _ (by omega)]
    exact hp.unjumped a
  · rw [hext.available _ (by omega)]
    exact hp.other
  · rw [hext.available _ (by omega)]
    exact hp.meeting

theorem InElse.extends (hp : InElse I given d₀ d rest last vals) (hext : Extends I given d d') :
    InElse I given d₀ d' rest last vals := by
  have hadded := hp.added
  simp only [List.length_cons, List.length_nil] at hadded
  refine ⟨hp.toStage.extends hext, fun a ↦ ?_, hp.last_lt.trans_le hext.length,
    hp.last_after.trans (hext.after _ hp.last_lt), ?_, hp.rest_subset.trans hext.out, hp.out⟩
  · rw [hext.jumps _ (by omega)]
    exact hp.arrivals a
  · rw [hext.available _ (by omega)]
    exact hp.meeting

/-- The branch to the first or the second branch of a choice. -/
theorem Prepared.enterThen (hp : Prepared I given d₀ d) (h : d.Sound I given) {vs : List ν}
    (hrole : I.role x = .terminator vs [d₀.blocks.length, d₀.blocks.length + 1])
    (hvs : ∀ v ∈ vs, v ∈ d.out I given) (hfresh : I.result x ∉ d.blocks.flatten.map I.result) :
    let ls := [d₀.blocks.length, d₀.blocks.length + 1, d₀.blocks.length + 2]
    let d' := d.branch I given ls x d₀.blocks.length .sealed
    d'.Sound I given ∧ InThen I given d₀ d' (d.out I given) ∧ d'.out I given = d.out I given := by
  intro ls
  have hthen : d.status d₀.blocks.length = .awaited := hp.statuses 0
  have helse : d.status (d₀.blocks.length + 1) = .awaited := hp.statuses 1
  have hmerge : d.status (d₀.blocks.length + 2) = .awaited := hp.statuses 2
  have hx : d.Ends I given ls x [d₀.blocks.length, d₀.blocks.length + 1] := by
    refine ⟨⟨vs, hrole, hvs⟩, hfresh, ?_, fun t ht hnot ↦ ?_⟩
    · exact List.forall_mem_cons.2 ⟨⟨hthen, hp.unjumped 0 (by decide)⟩,
        List.forall_mem_cons.2 ⟨⟨helse, hp.unjumped 1 (by decide)⟩,
          List.forall_mem_singleton.2 ⟨hmerge, hp.unjumped 2 (by decide)⟩⟩⟩
    · refine absurd ?_ hnot
      rcases List.mem_cons.1 ht with rfl | ht
      · exact List.mem_cons_self
      · rw [List.mem_singleton.1 ht]
        exact List.mem_cons_of_mem _ List.mem_cons_self
  have hout : (d.branch I given ls x d₀.blocks.length .sealed).out I given = d.out I given :=
    out_branch_of_mem h hp.isOpen hthen List.mem_cons_self
  have hle : ∀ l ∈ ls, d₀.blocks.length ≤ l := by
    simp [ls]
  have hle' : ∀ t ∈ [d₀.blocks.length, d₀.blocks.length + 1], d₀.blocks.length ≤ t := by
    simp
  have hstage : Stage I given d₀ [.sealed, .awaited, .awaited]
      (d.branch I given ls x d₀.blocks.length .sealed) :=
    hp.toStage.branch (i := 0) h hx hle hle' (by decide)
  refine ⟨h.branch hp.isOpen hx hthen (fun heq ↦ BlockStatus.noConfusion heq),
    ⟨hstage, fun a ↦ ?_, ?_, ?_, ?_, hp.out⟩, hout⟩
  · have hnot : d₀.blocks.length + 2 ∉ [d₀.blocks.length, d₀.blocks.length + 1] := by
      simp only [List.mem_cons, List.not_mem_nil, or_false]
      omega
    rw [jumps_branch h hp.isOpen hx, hp.unjumped 2 (by decide), List.count_eq_zero_of_not_mem hnot,
      ite_self]
  · rw [available_branch, if_pos (List.mem_cons_of_mem _ List.mem_cons_self)]
  · rw [available_branch,
      if_pos (List.mem_cons_of_mem _ (List.mem_cons_of_mem _ List.mem_cons_self))]
  · rw [hout]

/-- The jump from the first branch to where the branches meet. -/
theorem InThen.enterElse (hp : InThen I given d₀ d rest) (h : d.Sound I given)
    (hrole : I.role x = .terminator [] [d₀.blocks.length + 2])
    (hfresh : I.result x ∉ d.blocks.flatten.map I.result) :
    let d' := d.branch I given [] x (d₀.blocks.length + 1) .sealed
    d'.Sound I given ∧ InElse I given d₀ d' rest d.current (d.out I given) := by
  have helse : d.status (d₀.blocks.length + 1) = .awaited := hp.statuses 1
  have hmerge : d.status (d₀.blocks.length + 2) = .awaited := hp.statuses 2
  have hx : d.Ends I given [] x [d₀.blocks.length + 2] := by
    refine ⟨⟨[], hrole, List.forall_mem_nil _⟩, hfresh, List.forall_mem_nil _, ?_⟩
    refine List.forall_mem_singleton.2 fun _ ↦ ⟨?_, ?_⟩
    · rw [hmerge]
      exact fun heq ↦ BlockStatus.noConfusion heq
    · rw [hp.meeting]
      exact hp.rest_subset
  have hle : ∀ t ∈ [d₀.blocks.length + 2], d₀.blocks.length ≤ t :=
    List.forall_mem_singleton.2 (Nat.le_add_right _ _)
  have hframe : Frame I given 0 d (d.branch I given [] x (d₀.blocks.length + 1) .sealed) :=
    frame_branch h hp.isOpen hx (List.forall_mem_nil _) (fun _ _ ↦ Nat.zero_le _) (Nat.zero_le _)
  refine ⟨h.branch hp.isOpen hx helse (fun heq ↦ BlockStatus.noConfusion heq),
    hp.toStage.branch (i := 1) h hx (List.forall_mem_nil _) hle (by decide), fun a ↦ ?_,
    (h.current_lt hp.isOpen).1.trans_le hframe.length, out_subset_after_branch h hp.isOpen hx,
    hp.meeting, ?_, hp.out⟩
  · rw [jumps_branch h hp.isOpen hx, hp.unjumped, List.count_singleton_self, Nat.zero_add]
  · rw [← hp.other]
    exact available_subset_out_branch h hp.isOpen helse List.not_mem_nil

/-- The jump from the second branch to where the branches meet. -/
theorem InElse.meet (hp : InElse I given d₀ d rest last vals) (h₀ : d₀.Sound I given)
    (h : d.Sound I given) (hrole : I.role x = .terminator [] [d₀.blocks.length + 2])
    (hfresh : I.result x ∉ d.blocks.flatten.map I.result) :
    let d' := d.branch I given [] x (d₀.blocks.length + 2) .sealed
    d'.Sound I given ∧ Meets I given d₀ d' last vals d.current (d.out I given) ∧
      rest ⊆ d'.out I given := by
  have hmerge : d.status (d₀.blocks.length + 2) = .awaited := hp.statuses 2
  have hx : d.Ends I given [] x [d₀.blocks.length + 2] := by
    refine ⟨⟨[], hrole, List.forall_mem_nil _⟩, hfresh, List.forall_mem_nil _, ?_⟩
    refine List.forall_mem_singleton.2 fun _ ↦ ⟨?_, ?_⟩
    · rw [hmerge]
      exact fun heq ↦ BlockStatus.noConfusion heq
    · rw [hp.meeting]
      exact hp.rest_subset
  have hle : ∀ t ∈ [d₀.blocks.length + 2], d₀.blocks.length ≤ t :=
    List.forall_mem_singleton.2 (Nat.le_add_right _ _)
  have hrest : rest ⊆ (d.branch I given [] x (d₀.blocks.length + 2) .sealed).out I given := by
    rw [← hp.meeting]
    exact available_subset_out_branch h hp.isOpen hmerge List.not_mem_nil
  have hstage : Stage I given d₀ [.sealed, .sealed, .sealed]
      (d.branch I given [] x (d₀.blocks.length + 2) .sealed) :=
    hp.toStage.branch (i := 2) h hx (List.forall_mem_nil _) hle (by decide)
  refine ⟨h.branch hp.isOpen hx hmerge (fun heq ↦ BlockStatus.noConfusion heq),
    ⟨hstage.finish h₀ ?_ (hp.out.trans hrest), rfl, blockAt_branch h hp.isOpen hmerge,
      fun a ↦ ?_, ?_, out_subset_after_branch h hp.isOpen hx⟩, hrest⟩
  · simp
  · change I.jumps (d.branch I given [] x (d₀.blocks.length + 2) .sealed).blocks a
      (d₀.blocks.length + 2) = _
    rw [jumps_branch h hp.isOpen hx, hp.arrivals, List.count_singleton_self]
  · exact hp.last_after.trans (after_subset_branch h hp.isOpen List.not_mem_nil)

/-! ### Checks -/

variable (I given) in
/-- The branch of a failed check is being written. Control does not come back from it. -/
structure InFailure (d₀ d : Draft δ ν) (rest : Set ν) : Prop
    extends Stage I given d₀ [.awaited, .sealed, .awaited] d where
  unjumped : ∀ a, I.jumps d.blocks a (d₀.blocks.length + 2) = 0
  other : d.available d₀.blocks.length = rest
  out : d₀.out I given ⊆ rest

variable (I given) in
/-- The branch after a check that succeeded is being written. -/
structure InSuccess (d₀ d : Draft δ ν) : Prop
    extends Stage I given d₀ [.sealed, .sealed, .awaited] d where
  unjumped : ∀ a, I.jumps d.blocks a (d₀.blocks.length + 2) = 0
  out : d₀.out I given ⊆ d.out I given

variable (I given) in
/-- The code goes on in an empty block after the block `last`. -/
structure Continues (d₀ d : Draft δ ν) (last : ℕ) (vals : Set ν) : Prop
    extends Extends I given d₀ d where
  current : d.current = d₀.blocks.length + 2
  empty : blockAt d.blocks d.current = []
  arrivals : ∀ a, I.jumps d.blocks a d.current = if a = last then 1 else 0
  last_after : vals ⊆ d.after I given last

theorem InFailure.extends (hp : InFailure I given d₀ d rest) (hext : Extends I given d d') :
    InFailure I given d₀ d' rest := by
  have hadded := hp.added
  simp only [List.length_cons, List.length_nil] at hadded
  refine ⟨hp.toStage.extends hext, fun a ↦ ?_, ?_, hp.out⟩
  · rw [hext.jumps _ (by omega)]
    exact hp.unjumped a
  · rw [hext.available _ (by omega)]
    exact hp.other

theorem InSuccess.extends (hp : InSuccess I given d₀ d) (hext : Extends I given d d') :
    InSuccess I given d₀ d' := by
  have hadded := hp.added
  simp only [List.length_cons, List.length_nil] at hadded
  refine ⟨hp.toStage.extends hext, fun a ↦ ?_, hp.out.trans hext.out⟩
  rw [hext.jumps _ (by omega)]
  exact hp.unjumped a

/-- The branch that a check decides. -/
theorem Prepared.enterFailure (hp : Prepared I given d₀ d) (h : d.Sound I given) {vs : List ν}
    (hrole : I.role x = .terminator vs [d₀.blocks.length + 1, d₀.blocks.length])
    (hvs : ∀ v ∈ vs, v ∈ d.out I given) (hfresh : I.result x ∉ d.blocks.flatten.map I.result) :
    let ls := [d₀.blocks.length, d₀.blocks.length + 1]
    let d' := d.branch I given ls x (d₀.blocks.length + 1) .sealed
    d'.Sound I given ∧ InFailure I given d₀ d' (d.out I given) ∧
      d'.out I given = d.out I given := by
  intro ls
  have hsuccess : d.status d₀.blocks.length = .awaited := hp.statuses 0
  have hfailure : d.status (d₀.blocks.length + 1) = .awaited := hp.statuses 1
  have hx : d.Ends I given ls x [d₀.blocks.length + 1, d₀.blocks.length] := by
    refine ⟨⟨vs, hrole, hvs⟩, hfresh, ?_, fun t ht hnot ↦ ?_⟩
    · exact List.forall_mem_cons.2 ⟨⟨hsuccess, hp.unjumped 0 (by decide)⟩,
        List.forall_mem_singleton.2 ⟨hfailure, hp.unjumped 1 (by decide)⟩⟩
    · refine absurd ?_ hnot
      rcases List.mem_cons.1 ht with rfl | ht
      · exact List.mem_cons_of_mem _ (List.mem_singleton_self _)
      · rw [List.mem_singleton.1 ht]
        exact List.mem_cons_self
  have hout : (d.branch I given ls x (d₀.blocks.length + 1) .sealed).out I given =
      d.out I given :=
    out_branch_of_mem h hp.isOpen hfailure (List.mem_cons_of_mem _ (List.mem_singleton_self _))
  have hle : ∀ l ∈ ls, d₀.blocks.length ≤ l := by
    simp [ls]
  have hle' : ∀ t ∈ [d₀.blocks.length + 1, d₀.blocks.length], d₀.blocks.length ≤ t := by
    simp
  refine ⟨h.branch hp.isOpen hx hfailure (fun heq ↦ BlockStatus.noConfusion heq),
    ⟨hp.toStage.branch (i := 1) h hx hle hle' (by decide), fun a ↦ ?_, ?_, hp.out⟩, hout⟩
  · have hnot : d₀.blocks.length + 2 ∉ [d₀.blocks.length + 1, d₀.blocks.length] := by
      simp only [List.mem_cons, List.not_mem_nil, or_false]
      omega
    rw [jumps_branch h hp.isOpen hx, hp.unjumped 2 (by decide), List.count_eq_zero_of_not_mem hnot,
      ite_self]
  · rw [available_branch, if_pos List.mem_cons_self]

/-- The failing branch ends without a jump. -/
theorem InFailure.enterSuccess (hp : InFailure I given d₀ d rest) (h : d.Sound I given)
    (hrole : I.role x = .terminator [] [])
    (hfresh : I.result x ∉ d.blocks.flatten.map I.result) :
    let d' := d.branch I given [] x d₀.blocks.length .sealed
    d'.Sound I given ∧ InSuccess I given d₀ d' ∧ rest ⊆ d'.out I given := by
  have hsuccess : d.status d₀.blocks.length = .awaited := hp.statuses 0
  have hx : d.Ends I given [] x [] :=
    ⟨⟨[], hrole, List.forall_mem_nil _⟩, hfresh, List.forall_mem_nil _, List.forall_mem_nil _⟩
  have hrest : rest ⊆ (d.branch I given [] x d₀.blocks.length .sealed).out I given := by
    rw [← hp.other]
    exact available_subset_out_branch h hp.isOpen hsuccess List.not_mem_nil
  refine ⟨h.branch hp.isOpen hx hsuccess (fun heq ↦ BlockStatus.noConfusion heq),
    ⟨hp.toStage.branch (i := 0) h hx (List.forall_mem_nil _) (List.forall_mem_nil _) (by decide),
      fun a ↦ ?_, hp.out.trans hrest⟩, hrest⟩
  rw [jumps_branch h hp.isOpen hx, hp.unjumped, List.count_nil, ite_self]

/-- The jump to the block in which the code goes on. -/
theorem InSuccess.goOn (hp : InSuccess I given d₀ d) (h₀ : d₀.Sound I given) (h : d.Sound I given)
    (hrole : I.role x = .terminator [] [d₀.blocks.length + 2])
    (hfresh : I.result x ∉ d.blocks.flatten.map I.result) :
    let d' := d.branch I given [d₀.blocks.length + 2] x (d₀.blocks.length + 2) .sealed
    d'.Sound I given ∧ Continues I given d₀ d' d.current (d.out I given) ∧
      d'.out I given = d.out I given := by
  have hnext : d.status (d₀.blocks.length + 2) = .awaited := hp.statuses 2
  have hx : d.Ends I given [d₀.blocks.length + 2] x [d₀.blocks.length + 2] :=
    ⟨⟨[], hrole, List.forall_mem_nil _⟩, hfresh,
      List.forall_mem_singleton.2 ⟨hnext, hp.unjumped⟩, fun t ht hnot ↦ absurd ht hnot⟩
  have hle : ∀ t ∈ [d₀.blocks.length + 2], d₀.blocks.length ≤ t :=
    List.forall_mem_singleton.2 (Nat.le_add_right _ _)
  have hout : (d.branch I given [d₀.blocks.length + 2] x (d₀.blocks.length + 2) .sealed).out I given =
      d.out I given :=
    out_branch_of_mem h hp.isOpen hnext (List.mem_singleton_self _)
  have hstage : Stage I given d₀ [.sealed, .sealed, .sealed]
      (d.branch I given [d₀.blocks.length + 2] x (d₀.blocks.length + 2) .sealed) :=
    hp.toStage.branch (i := 2) h hx hle hle (by decide)
  refine ⟨h.branch hp.isOpen hx hnext (fun heq ↦ BlockStatus.noConfusion heq),
    ⟨hstage.finish h₀ ?_ ?_, rfl, blockAt_branch h hp.isOpen hnext, fun a ↦ ?_,
      out_subset_after_branch h hp.isOpen hx⟩, hout⟩
  · simp
  · rw [hout]
    exact hp.out
  · change I.jumps (d.branch I given [d₀.blocks.length + 2] x (d₀.blocks.length + 2) .sealed).blocks a
      (d₀.blocks.length + 2) = _
    rw [jumps_branch h hp.isOpen hx, hp.unjumped, List.count_singleton_self, Nat.zero_add]

theorem Meets.mono {vals' : Set ν} {last' : ℕ} {w w' : Set ν}
    (hm : Meets I given d₀ d last vals last' vals') (hw : w ⊆ vals) (hw' : w' ⊆ vals') :
    Meets I given d₀ d last w last' w' :=
  ⟨hm.toExtends, hm.current, hm.empty, hm.arrivals, hw.trans hm.last_after,
    hw'.trans hm.last_after'⟩

theorem Continues.mono {w : Set ν} (hc : Continues I given d₀ d last vals) (hw : w ⊆ vals) :
    Continues I given d₀ d last w :=
  ⟨hc.toExtends, hc.current, hc.empty, hc.arrivals, hw.trans hc.last_after⟩

/-! ### Phis -/

/-- A phi may stand where the code goes on in an empty block of its own. -/
theorem Extends.fits_phi (hext : Extends I given d₀ d) (h₀ : d₀.Sound I given)
    (hcurrent : d.current = d₀.blocks.length + 2) (hempty : blockAt d.blocks d.current = [])
    {entries : List (ν × ℕ)} (hrole : I.role x = .phi entries)
    (hentries : ∀ a, (entries.map Prod.snd).count a = I.jumps d.blocks a d.current)
    (hafter : ∀ v a, (v, a) ∈ entries → v ∈ d.after I given a)
    (hfresh : I.result x ∉ d.blocks.flatten.map I.result) : d.Fits I given x := by
  have hsealed : d.status d.current = .sealed := by
    rw [hext.statuses, hcurrent]
    by_contra hne
    exact absurd (h₀.unsealed _ hne).2.1 (by omega)
  refine ⟨?_, hfresh, ?_, fun _ ↦ ⟨by omega, hsealed, ?_, ?_, ?_⟩⟩
  · rw [hrole]
    exact List.forall_mem_nil _
  · rw [hrole]
    exact List.forall_mem_nil _
  · rw [hempty]
    exact List.forall_mem_nil _
  · rw [hrole]
    exact hentries
  · rw [hrole]
    exact hafter

/-- The phi of two branches. -/
theorem Meets.fits_phi {vals' : Set ν} {last' : ℕ}
    (hm : Meets I given d₀ d last vals last' vals') (h₀ : d₀.Sound I given) {v v' : ν}
    (hrole : I.role x = .phi [(v, last), (v', last')]) (hv : v ∈ vals) (hv' : v' ∈ vals')
    (hfresh : I.result x ∉ d.blocks.flatten.map I.result) : d.Fits I given x := by
  refine hm.toExtends.fits_phi h₀ hm.current hm.empty hrole (fun a ↦ ?_) (fun w a hw ↦ ?_) hfresh
  · rw [hm.arrivals]
    simp only [List.map_cons, List.map_nil, List.count_cons, List.count_nil, beq_iff_eq,
      eq_comm (a := a)]
    omega
  · rcases List.mem_cons.1 hw with hw | hw
    · obtain ⟨rfl, rfl⟩ := Prod.mk.inj hw
      exact hm.last_after hv
    · obtain ⟨rfl, rfl⟩ := Prod.mk.inj (List.mem_singleton.1 hw)
      exact hm.last_after' hv'

/-- The phi of one block. -/
theorem Continues.fits_phi (hc : Continues I given d₀ d last vals) (h₀ : d₀.Sound I given) {v : ν}
    (hrole : I.role x = .phi [(v, last)]) (hv : v ∈ vals)
    (hfresh : I.result x ∉ d.blocks.flatten.map I.result) : d.Fits I given x := by
  refine hc.toExtends.fits_phi h₀ hc.current hc.empty hrole (fun a ↦ ?_) (fun w a hw ↦ ?_) hfresh
  · rw [hc.arrivals]
    simp only [List.map_cons, List.map_nil, List.count_cons, List.count_nil, beq_iff_eq,
      eq_comm (a := a)]
    omega
  · obtain ⟨rfl, rfl⟩ := Prod.mk.inj (List.mem_singleton.1 hw)
    exact hc.last_after hv

end Three

end Sipc.Library.Draft
