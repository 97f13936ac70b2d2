import Sipc.Semantic.Cfa.CallGraph

/-!
# The order in which functions are generalised

The functions of `semantic/types/TypeInference.cpp` that sort a call graph: `mayIndirectlyCall` looks
for a call chain, `recursiveFuncs` and `topoSortNonRecursive` filter out the functions from which a
recursive function is reachable, and `topoSort` orders the others, callees first.

`mayIndirectlyCall` recurses over callees without remembering where it has been, so it returns only on
some graphs. `Settles` describes them: where no chain leads from `f` to `g` the search has to look at
everything below `f`, and where one does it has to run into `g` before it runs into a cycle
(`mayIndirectlyCall_returns_iff`). The sort itself is right on every graph on which the searches
return (`topoSortNonRecursive_correct_iff`).
-/

set_option autoImplicit false
set_option relaxedAutoImplicit false

namespace Sipc

open Library

variable {F : Type} [DecidableEq F] (cg : CallGraph F)

/-- The loop of `mayIndirectlyCall` over callees; `search` is the recursive call. A result that is
already true is not computed again. -/
def mayIndirectlyCallLoop (search : F → Option Bool) (g : F) : List F → Bool → Option Bool
  | [], result => some result
  | c :: cs, result =>
    if c = g then some true
    else if result then mayIndirectlyCallLoop search g cs true
    else
      match search c with
      | none => none
      | some r => mayIndirectlyCallLoop search g cs r

/-- `mayIndirectlyCall`. `none` means that the fuel ran out. -/
def mayIndirectlyCall : ℕ → F → F → Option Bool
  | 0, _, _ => none
  | fuel + 1, f, g =>
    mayIndirectlyCallLoop (fun c ↦ mayIndirectlyCall fuel c g) g (cg.getCallees f) false

/-- The global variables of the sort. -/
structure TopoState (F : Type) where
  sorted : List F
  unmarked : List F

/-- `topoVisit`. -/
def topoVisit : ℕ → F → TopoState F → Option (TopoState F)
  | 0, _, _ => none
  | fuel + 1, f, state =>
    if f ∉ state.unmarked then some state
    else
      match (cg.getCallees f).foldlM (fun state c ↦ topoVisit fuel c state)
          { state with unmarked := state.unmarked.erase f } with
      | none => none
      | some state => some { state with sorted := state.sorted ++ [f] }

/-- The loop of `topoSort`. -/
def topoSortLoop (visitFuel : ℕ) : ℕ → TopoState F → Option (List F)
  | 0, _ => none
  | fuel + 1, state =>
    match state.unmarked.getLast? with
    | none => some state.sorted
    | some f =>
      match topoVisit cg visitFuel f state with
      | none => none
      | some state => topoSortLoop visitFuel fuel state

/-- `topoSort`. -/
def topoSort (fuel : ℕ) (funcs : List F) : Option (List F) :=
  topoSortLoop cg fuel fuel { sorted := [], unmarked := funcs }

/-- Keep the functions of a list for which a test that may not return is true. -/
def keepFuncs (test : F → Option Bool) : List F → Option (List F)
  | [] => some []
  | f :: fs =>
    match test f with
    | none => none
    | some keep => (keepFuncs test fs).map fun kept ↦ if keep then f :: kept else kept

/-- `recursiveFuncs`. -/
def recursiveFuncs (fuel : ℕ) : Option (List F) :=
  keepFuncs (fun f ↦ mayIndirectlyCall cg fuel f f) cg.getVertices

/-- The inner loop of `topoSortNonRecursive`: whether `f` is one of the functions `recFuncs` or may
indirectly call one. -/
def isFiltered (fuel : ℕ) (f : F) : List F → Option Bool
  | [] => some false
  | r :: recFuncs =>
    match if f = r then some true else mayIndirectlyCall cg fuel f r with
    | none => none
    | some true => some true
    | some false => isFiltered fuel f recFuncs

/-- `topoSortNonRecursive`. -/
def topoSortNonRecursive (fuel : ℕ) : Option (List F) := do
  let recFuncs ← recursiveFuncs cg fuel
  let nonRecursiveFuncs ←
    keepFuncs (fun f ↦ (isFiltered cg fuel f recFuncs).map fun filter ↦ !filter) cg.getVertices
  topoSort cg fuel nonRecursiveFuncs

/-! ### The search for a call chain -/

variable {cg}

theorem mayIndirectlyCallLoop_eq {search : F → Option Bool} {g : F}
    (hsearch : ∀ c b, search c = some b → (b = true ↔ cg.Reaches c g)) :
    ∀ (cs : List F) (result b : Bool), mayIndirectlyCallLoop search g cs result = some b →
      (b = true ↔ result = true ∨ ∃ c ∈ cs, c = g ∨ cg.Reaches c g)
  | [], result, b, h => by
    obtain rfl := Option.some.inj h
    simp
  | c :: cs, result, b, h => by
    unfold mayIndirectlyCallLoop at h
    split_ifs at h with hcg hresult
    · obtain rfl := Option.some.inj h
      simp [hcg]
    · rw [mayIndirectlyCallLoop_eq hsearch cs true b h]
      simp [hresult]
    · split at h
      · cases h
      · next r hr =>
        rw [mayIndirectlyCallLoop_eq hsearch cs r b h, hsearch c r hr]
        simp [hresult, hcg]

/-- An answer of the search is right. -/
theorem mayIndirectlyCall_eq :
    ∀ (fuel : ℕ) (f g : F) (b : Bool), mayIndirectlyCall cg fuel f g = some b →
      (b = true ↔ cg.Reaches f g)
  | 0, _, _, _, h => by cases h
  | fuel + 1, f, g, b, h => by
    unfold mayIndirectlyCall at h
    rw [mayIndirectlyCallLoop_eq (fun c b hb ↦ mayIndirectlyCall_eq fuel c g b hb) _ _ _ h,
      cg.reaches_iff]
    simp

theorem mayIndirectlyCallLoop_mono {search search' : F → Option Bool} {g : F}
    (h : ∀ c b, search c = some b → search' c = some b) :
    ∀ (cs : List F) (result b : Bool), mayIndirectlyCallLoop search g cs result = some b →
      mayIndirectlyCallLoop search' g cs result = some b
  | [], _, _, hb => hb
  | c :: cs, result, b, hb => by
    unfold mayIndirectlyCallLoop at hb ⊢
    split_ifs at hb ⊢
    · exact hb
    · exact mayIndirectlyCallLoop_mono h cs true b hb
    · cases hc : search c with
      | none =>
        rw [hc] at hb
        cases hb
      | some r =>
        rw [hc] at hb
        rw [h c r hc]
        exact mayIndirectlyCallLoop_mono h cs r b hb

theorem mayIndirectlyCall_mono {fuel fuel' : ℕ} (hle : fuel ≤ fuel') :
    ∀ {f g : F} {b : Bool}, mayIndirectlyCall cg fuel f g = some b →
      mayIndirectlyCall cg fuel' f g = some b := by
  induction hle with
  | refl => exact id
  | @step m _ ih =>
    intro f g b h
    have hstep : ∀ (m : ℕ) (f g : F) (b : Bool), mayIndirectlyCall cg m f g = some b →
        mayIndirectlyCall cg (m + 1) f g = some b := by
      intro m
      induction m with
      | zero => intro f g b h; cases h
      | succ m ihm =>
        intro f g b h
        rw [mayIndirectlyCall] at h
        rw [mayIndirectlyCall]
        exact mayIndirectlyCallLoop_mono (fun c b hb ↦ ihm c g b hb) _ _ _ h
    exact hstep m f g b (ih h)

variable (cg)

/-- `c` is the first callee of `f` that is `g` or leads to `g`, and the callees listed before it reach
no call cycle. -/
def FirstToward (g f c : F) : Prop :=
  ∃ before after, cg.getCallees f = before ++ c :: after ∧ (c = g ∨ cg.Reaches c g) ∧
    ∀ b ∈ before, b ≠ g ∧ ¬ cg.Reaches b g ∧ ¬ cg.CallsCycle b

/-- Going from callee to callee towards `g`, always to the first that leads there, one arrives. -/
inductive Arrives (g : F) : F → Prop
  | here {f : F} : FirstToward cg g f g → Arrives g f
  | next {f c : F} : FirstToward cg g f c → c ≠ g → Arrives g c → Arrives g f

/-- Where no call chain leads from `f` to `g`, no call cycle is reachable from `f`; where one does,
following the first callees that lead to `g` arrives at `g`. -/
def SearchSettles (f g : F) : Prop :=
  (¬ cg.Reaches f g → ¬ cg.CallsCycle f) ∧ (cg.Reaches f g → Arrives cg g f)

variable {cg}

theorem mayIndirectlyCallLoop_cons (search : F → Option Bool) (g c : F) (cs : List F) :
    mayIndirectlyCallLoop search g (c :: cs) false =
      if c = g then some true else (search c).bind (mayIndirectlyCallLoop search g cs) := by
  rw [mayIndirectlyCallLoop, if_neg Bool.false_ne_true]
  cases search c <;> rfl

/-- The loop returns false when every callee is searched without success. -/
theorem mayIndirectlyCallLoop_false {search : F → Option Bool} {g : F} :
    ∀ cs : List F, (∀ c ∈ cs, c ≠ g ∧ search c = some false) →
      mayIndirectlyCallLoop search g cs false = some false
  | [], _ => rfl
  | c :: cs, h => by
    obtain ⟨hne, hc⟩ := h c List.mem_cons_self
    rw [mayIndirectlyCallLoop_cons, if_neg hne, hc]
    exact mayIndirectlyCallLoop_false cs fun d hd ↦ h d (List.mem_cons_of_mem _ hd)

theorem mayIndirectlyCallLoop_true {search : F → Option Bool} {g : F} :
    ∀ cs : List F, mayIndirectlyCallLoop search g cs true = some true
  | [] => rfl
  | c :: cs => by
    rw [mayIndirectlyCallLoop, if_pos rfl, mayIndirectlyCallLoop_true cs, ite_self]

/-- The loop returns true at the first callee that is `g` or is searched with success. -/
theorem mayIndirectlyCallLoop_append {search : F → Option Bool} {g c : F} {after : List F}
    (hc : c = g ∨ search c = some true) :
    ∀ before : List F, (∀ b ∈ before, b ≠ g ∧ search b = some false) →
      mayIndirectlyCallLoop search g (before ++ c :: after) false = some true
  | [], _ => by
    rw [List.nil_append, mayIndirectlyCallLoop_cons]
    split_ifs with hcg
    · rfl
    · rw [hc.resolve_left hcg]
      exact mayIndirectlyCallLoop_true after
  | b :: before, h => by
    obtain ⟨hne, hb⟩ := h b List.mem_cons_self
    rw [List.cons_append, mayIndirectlyCallLoop_cons, if_neg hne, hb]
    exact mayIndirectlyCallLoop_append hc before fun d hd ↦ h d (List.mem_cons_of_mem _ hd)

/-- Finitely many searches that return do so with one amount of fuel. -/
theorem exists_common_fuel {g : F} :
    ∀ cs : List F, (∀ c ∈ cs, ∃ fuel, mayIndirectlyCall cg fuel c g = some false) →
      ∃ fuel, ∀ c ∈ cs, mayIndirectlyCall cg fuel c g = some false
  | [], _ => ⟨0, by simp⟩
  | c :: cs, h => by
    obtain ⟨fuel₁, h₁⟩ := h c List.mem_cons_self
    obtain ⟨fuel₂, h₂⟩ := exists_common_fuel cs fun d hd ↦ h d (List.mem_cons_of_mem _ hd)
    refine ⟨max fuel₁ fuel₂, fun d hd ↦ ?_⟩
    rcases List.mem_cons.mp hd with rfl | hd
    · exact mayIndirectlyCall_mono (le_max_left _ _) h₁
    · exact mayIndirectlyCall_mono (le_max_right _ _) (h₂ d hd)

/-- The search below a function that reaches neither `g` nor a cycle ends without success. -/
theorem mayIndirectlyCall_of_not_callsCycle {f g : F} (hcycle : ¬ cg.CallsCycle f)
    (hreach : ¬ cg.Reaches f g) : ∃ fuel, mayIndirectlyCall cg fuel f g = some false := by
  revert hreach
  refine acyclic_induction (W := cg.vertices.toFinset)
    (fun f c hc ↦ List.mem_toFinset.mpr (cg.callees_mem f c hc))
    (P := fun f ↦ ¬ cg.Reaches f g → ∃ fuel, mayIndirectlyCall cg fuel f g = some false) ?_ f hcycle
  intro f _ ih hreach
  have hcallee : ∀ c ∈ cg.getCallees f, c ≠ g ∧ ¬ cg.Reaches c g := by
    intro c hc
    constructor
    · rintro rfl
      exact hreach ((cg.reaches_iff f c).mpr ⟨c, hc, Or.inl rfl⟩)
    · exact fun h ↦ hreach ((cg.reaches_iff f g).mpr ⟨c, hc, Or.inr h⟩)
  obtain ⟨fuel, hfuel⟩ := exists_common_fuel (cg.getCallees f)
    fun c hc ↦ ih c hc (hcallee c hc).2
  refine ⟨fuel + 1, ?_⟩
  unfold mayIndirectlyCall
  exact mayIndirectlyCallLoop_false _ fun c hc ↦ ⟨(hcallee c hc).1, hfuel c hc⟩

/-- The search that arrives at `g` returns true. -/
theorem mayIndirectlyCall_of_arrives {f g : F} (h : Arrives cg g f) :
    ∃ fuel, mayIndirectlyCall cg fuel f g = some true := by
  have hbefore : ∀ before : List F,
      (∀ b ∈ before, b ≠ g ∧ ¬ cg.Reaches b g ∧ ¬ cg.CallsCycle b) →
      ∃ fuel, ∀ b ∈ before, mayIndirectlyCall cg fuel b g = some false := fun before hb ↦
    exists_common_fuel before fun b hmem ↦
      mayIndirectlyCall_of_not_callsCycle (hb b hmem).2.2 (hb b hmem).2.1
  induction h with
  | here hfirst =>
    obtain ⟨before, after, heq, _, hb⟩ := hfirst
    obtain ⟨fuel, hfuel⟩ := hbefore before hb
    refine ⟨fuel + 1, ?_⟩
    unfold mayIndirectlyCall
    rw [heq]
    exact mayIndirectlyCallLoop_append (Or.inl rfl) before fun b hmem ↦
      ⟨(hb b hmem).1, hfuel b hmem⟩
  | next hfirst _ _ ih =>
    obtain ⟨before, after, heq, _, hb⟩ := hfirst
    obtain ⟨fuel₁, h₁⟩ := hbefore before hb
    obtain ⟨fuel₂, h₂⟩ := ih
    refine ⟨max fuel₁ fuel₂ + 1, ?_⟩
    unfold mayIndirectlyCall
    rw [heq]
    refine mayIndirectlyCallLoop_append (Or.inr ?_) before fun b hmem ↦ ⟨(hb b hmem).1, ?_⟩
    · exact mayIndirectlyCall_mono (le_max_right fuel₁ fuel₂) h₂
    · exact mayIndirectlyCall_mono (le_max_left fuel₁ fuel₂) (h₁ b hmem)

/-- A loop that returns has searched every callee up to the first that is, or reaches, `g`. -/
theorem mayIndirectlyCallLoop_returns {search : F → Option Bool} {g : F}
    (hsearch : ∀ c b, search c = some b → (b = true ↔ cg.Reaches c g)) :
    ∀ (cs : List F) (b : Bool), mayIndirectlyCallLoop search g cs false = some b →
      (∀ c ∈ cs, c ≠ g ∧ ¬ cg.Reaches c g ∧ (search c).isSome) ∨
      ∃ before c after, cs = before ++ c :: after ∧
        (∀ b ∈ before, b ≠ g ∧ ¬ cg.Reaches b g ∧ (search b).isSome) ∧
        (c = g ∨ (c ≠ g ∧ cg.Reaches c g ∧ (search c).isSome))
  | [], _, _ => Or.inl (by simp)
  | c :: cs, b, h => by
    rw [mayIndirectlyCallLoop_cons] at h
    split_ifs at h with hcg
    · exact Or.inr ⟨[], c, cs, rfl, by simp, Or.inl hcg⟩
    · obtain ⟨r, hr, h⟩ := Option.bind_eq_some_iff.mp h
      have hsome : (search c).isSome := by rw [hr]; rfl
      cases r with
      | true =>
        exact Or.inr ⟨[], c, cs, rfl, by simp, Or.inr ⟨hcg, (hsearch c true hr).mp rfl, hsome⟩⟩
      | false =>
        have hnot : ¬ cg.Reaches c g := fun hreach ↦ by
          cases (hsearch c false hr).mpr hreach
        rcases mayIndirectlyCallLoop_returns hsearch cs b h with
          hall | ⟨before, d, after, rfl, hbefore, hd⟩
        · refine Or.inl fun d hd ↦ ?_
          rcases List.mem_cons.mp hd with rfl | hd
          · exact ⟨hcg, hnot, hsome⟩
          · exact hall d hd
        · refine Or.inr ⟨c :: before, d, after, rfl, fun e he ↦ ?_, hd⟩
          rcases List.mem_cons.mp he with rfl | he
          · exact ⟨hcg, hnot, hsome⟩
          · exact hbefore e he

/-- A search that returns settles. -/
theorem searchSettles_of_returns :
    ∀ (fuel : ℕ) (f g : F) (b : Bool), mayIndirectlyCall cg fuel f g = some b →
      SearchSettles cg f g
  | 0, _, _, _, h => by cases h
  | fuel + 1, f, g, b, h => by
    unfold mayIndirectlyCall at h
    have hsettles : ∀ c, (mayIndirectlyCall cg fuel c g).isSome → SearchSettles cg c g := by
      intro c hc
      obtain ⟨r, hr⟩ := Option.isSome_iff_exists.mp hc
      exact searchSettles_of_returns fuel c g r hr
    rcases mayIndirectlyCallLoop_returns (fun c b hb ↦ mayIndirectlyCall_eq fuel c g b hb) _ b h
      with hall | ⟨before, c, after, heq, hbefore, hc⟩
    · constructor
      · intro _ hcycle
        obtain ⟨c, hc, hcycle⟩ := ReachesCycle.exists_edge hcycle
        obtain ⟨_, hreach, hsome⟩ := hall c hc
        exact (hsettles c hsome).1 hreach hcycle
      · intro hreach
        obtain ⟨c, hc, h⟩ := (cg.reaches_iff f g).mp hreach
        obtain ⟨hne, hnot, _⟩ := hall c hc
        exact absurd h (not_or.mpr ⟨hne, hnot⟩)
    · have hmem : c ∈ cg.getCallees f := by rw [heq]; simp
      have hpassed : ∀ b ∈ before, b ≠ g ∧ ¬ cg.Reaches b g ∧ ¬ cg.CallsCycle b := by
        intro b hb
        obtain ⟨hne, hnot, hsome⟩ := hbefore b hb
        exact ⟨hne, hnot, (hsettles b hsome).1 hnot⟩
      rcases hc with rfl | ⟨hne, hreach, hsome⟩
      · exact ⟨fun hnot ↦ absurd ((cg.reaches_iff f c).mpr ⟨c, hmem, Or.inl rfl⟩) hnot,
          fun _ ↦ Arrives.here ⟨before, after, heq, Or.inl rfl, hpassed⟩⟩
      · exact ⟨fun hnot ↦ absurd ((cg.reaches_iff f g).mpr ⟨c, hmem, Or.inr hreach⟩) hnot,
          fun _ ↦ Arrives.next ⟨before, after, heq, Or.inr hreach, hpassed⟩ hne
            ((hsettles c hsome).2 hreach)⟩

/-- The search from `f` for `g` returns exactly when it settles. -/
theorem mayIndirectlyCall_returns_iff (f g : F) :
    (∃ fuel b, mayIndirectlyCall cg fuel f g = some b) ↔ SearchSettles cg f g := by
  constructor
  · rintro ⟨fuel, b, h⟩
    exact searchSettles_of_returns fuel f g b h
  · rintro ⟨hfalse, htrue⟩
    by_cases hreach : cg.Reaches f g
    · obtain ⟨fuel, h⟩ := mayIndirectlyCall_of_arrives (htrue hreach)
      exact ⟨fuel, true, h⟩
    · obtain ⟨fuel, h⟩ := mayIndirectlyCall_of_not_callsCycle (hfalse hreach) hreach
      exact ⟨fuel, false, h⟩

/-! ### The sort -/

variable (cg) in
/-- Every function of the list stands after all its callees. -/
def CalleesFirst (fs : List F) : Prop :=
  ∀ before f after, fs = before ++ f :: after → ∀ c ∈ cg.getCallees f, c ∈ before

omit [DecidableEq F] in
theorem CalleesFirst.append_singleton {fs : List F} (h : CalleesFirst cg fs) {f : F}
    (hf : ∀ c ∈ cg.getCallees f, c ∈ fs) : CalleesFirst cg (fs ++ [f]) := by
  intro before g after heq c hc
  rcases List.eq_nil_or_concat after with rfl | ⟨init, last, rfl⟩
  · obtain ⟨rfl, hfg⟩ := List.append_inj' heq rfl
    obtain rfl := List.cons.inj hfg |>.1
    exact hf c hc
  · rw [List.concat_eq_append, ← List.cons_append, ← List.append_assoc] at heq
    obtain ⟨rfl, _⟩ := List.append_inj' heq rfl
    exact h before g init rfl c hc

variable (cg) in
/-- The functions from which no call cycle is reachable. -/
def NonRecursive (f : F) : Prop :=
  f ∈ cg.getVertices ∧ ¬ cg.CallsCycle f

variable (cg) in
/-- What holds of the state of the sort while the functions of `stack` are being visited. -/
structure TopoInvariant (stack : List F) (state : TopoState F) : Prop where
  unmarked_nodup : state.unmarked.Nodup
  sorted_nodup : state.sorted.Nodup
  unmarked_mem : ∀ f ∈ state.unmarked, NonRecursive cg f ∧ f ∉ state.sorted
  sorted_mem : ∀ f ∈ state.sorted, NonRecursive cg f
  stack_mem : ∀ f ∈ stack, f ∉ state.unmarked ∧ f ∉ state.sorted
  cover : ∀ f, NonRecursive cg f → f ∈ state.unmarked ∨ f ∈ state.sorted ∨ f ∈ stack
  ordered : CalleesFirst cg state.sorted

variable (cg) in
/-- What visiting guarantees: everything sorted stays sorted, and no function becomes unmarked. -/
structure Visits (stack : List F) (state state' : TopoState F) : Prop where
  invariant : TopoInvariant cg stack state'
  sorted : ∀ f ∈ state.sorted, f ∈ state'.sorted
  unmarked : state'.unmarked.length ≤ state.unmarked.length

theorem foldlM_topoVisit {fuel : ℕ} {stack : List F}
    (ih : ∀ f state, TopoInvariant cg stack state → NonRecursive cg f →
      (∀ s ∈ stack, cg.Reaches s f) → state.unmarked.length < fuel →
      ∃ state', topoVisit cg fuel f state = some state' ∧ Visits cg stack state state' ∧
        f ∈ state'.sorted) :
    ∀ (cs : List F) (state : TopoState F), TopoInvariant cg stack state →
      (∀ c ∈ cs, NonRecursive cg c ∧ ∀ s ∈ stack, cg.Reaches s c) →
      state.unmarked.length < fuel →
      ∃ state', cs.foldlM (fun state c ↦ topoVisit cg fuel c state) state = some state' ∧
        Visits cg stack state state' ∧ ∀ c ∈ cs, c ∈ state'.sorted
  | [], state, hinv, _, _ => ⟨state, rfl, ⟨hinv, fun _ h ↦ h, le_rfl⟩, by simp⟩
  | c :: cs, state, hinv, hcs, hfuel => by
    obtain ⟨hc, hstack⟩ := hcs c List.mem_cons_self
    obtain ⟨state₁, h₁, hvisits₁, hc₁⟩ := ih c state hinv hc hstack hfuel
    obtain ⟨state₂, h₂, hvisits₂, hcs₂⟩ := foldlM_topoVisit ih cs state₁ hvisits₁.invariant
      (fun d hd ↦ hcs d (List.mem_cons_of_mem _ hd)) (hvisits₁.unmarked.trans_lt hfuel)
    refine ⟨state₂, ?_, ⟨hvisits₂.invariant, fun f hf ↦ hvisits₂.sorted f (hvisits₁.sorted f hf),
      hvisits₂.unmarked.trans hvisits₁.unmarked⟩, fun d hd ↦ ?_⟩
    · rw [List.foldlM_cons, h₁]
      exact h₂
    · rcases List.mem_cons.mp hd with rfl | hd
      · exact hvisits₂.sorted d hc₁
      · exact hcs₂ d hd

/-- Visiting a function sorts it after everything below it. The functions on the stack all lead to it,
so it is not one of them. -/
theorem topoVisit_spec :
    ∀ (fuel : ℕ) (stack : List F) (f : F) (state : TopoState F), TopoInvariant cg stack state →
      NonRecursive cg f → (∀ s ∈ stack, cg.Reaches s f) → state.unmarked.length < fuel →
      ∃ state', topoVisit cg fuel f state = some state' ∧ Visits cg stack state state' ∧
        f ∈ state'.sorted := by
  intro fuel
  induction fuel with
  | zero => intro stack f state _ _ _ hfuel; omega
  | succ fuel ih =>
    intro stack f state hinv hf hstack hfuel
    have hfresh : f ∉ stack := fun hmem ↦ hf.2 (ReachesCycle.of_cycle (hstack f hmem))
    unfold topoVisit
    by_cases hmem : f ∈ state.unmarked
    · rw [if_neg (not_not_intro hmem)]
      have hlen : (state.unmarked.erase f).length + 1 = state.unmarked.length := by
        have := List.length_erase_of_mem hmem
        have := List.length_pos_of_mem hmem
        omega
      have herase : ∀ g, g ∈ state.unmarked.erase f ↔ g ≠ f ∧ g ∈ state.unmarked :=
        fun g ↦ hinv.unmarked_nodup.mem_erase_iff
      have hinv₁ : TopoInvariant cg (f :: stack)
          { state with unmarked := state.unmarked.erase f } := by
        refine ⟨hinv.unmarked_nodup.erase f, hinv.sorted_nodup, fun g hg ↦ ?_, hinv.sorted_mem,
          fun g hg ↦ ?_, fun g hg ↦ ?_, hinv.ordered⟩
        · exact hinv.unmarked_mem g ((herase g).mp hg).2
        · rcases List.mem_cons.mp hg with rfl | hg
          · exact ⟨fun h ↦ ((herase g).mp h).1 rfl, (hinv.unmarked_mem g hmem).2⟩
          · exact ⟨fun h ↦ (hinv.stack_mem g hg).1 ((herase g).mp h).2, (hinv.stack_mem g hg).2⟩
        · by_cases hgf : g = f
          · exact Or.inr (Or.inr (by simp [hgf]))
          · rcases hinv.cover g hg with h | h | h
            · exact Or.inl ((herase g).mpr ⟨hgf, h⟩)
            · exact Or.inr (Or.inl h)
            · exact Or.inr (Or.inr (List.mem_cons_of_mem _ h))
      have hcallees : ∀ c ∈ cg.getCallees f,
          NonRecursive cg c ∧ ∀ s ∈ f :: stack, cg.Reaches s c := by
        intro c hc
        refine ⟨⟨cg.callees_mem f c hc, fun h ↦ hf.2 (CallGraph.CallsCycle.of_calls hc h)⟩, ?_⟩
        have hfc : cg.Reaches f c := Relation.TransGen.single hc
        intro s hs
        rcases List.mem_cons.mp hs with rfl | hs
        · exact hfc
        · exact (hstack s hs).trans hfc
      obtain ⟨state₂, h₂, hvisits, hsorted⟩ := foldlM_topoVisit (ih (f :: stack)) (cg.getCallees f)
        _ hinv₁ hcallees (by change (state.unmarked.erase f).length < fuel; omega)
      rw [h₂]
      have hinv₂ := hvisits.invariant
      obtain ⟨hf₁, hf₂⟩ := hinv₂.stack_mem f List.mem_cons_self
      refine ⟨_, rfl, ⟨⟨hinv₂.unmarked_nodup, ?_, fun g hg ↦ ?_, fun g hg ↦ ?_, fun g hg ↦ ?_,
        fun g hg ↦ ?_, hinv₂.ordered.append_singleton hsorted⟩, fun g hg ↦ ?_, ?_⟩, ?_⟩
      · exact List.nodup_append.mpr ⟨hinv₂.sorted_nodup, List.nodup_singleton f, by
          rintro a ha b hb rfl
          exact hf₂ (List.mem_singleton.mp hb ▸ ha)⟩
      · refine ⟨(hinv₂.unmarked_mem g hg).1, ?_⟩
        rw [List.mem_append, List.mem_singleton]
        rintro (h | rfl)
        · exact (hinv₂.unmarked_mem g hg).2 h
        · exact hf₁ hg
      · rcases List.mem_append.mp hg with hg | hg
        · exact hinv₂.sorted_mem g hg
        · exact List.mem_singleton.mp hg ▸ hf
      · refine ⟨(hinv₂.stack_mem g (List.mem_cons_of_mem _ hg)).1, ?_⟩
        rw [List.mem_append, List.mem_singleton]
        rintro (h | rfl)
        · exact (hinv₂.stack_mem g (List.mem_cons_of_mem _ hg)).2 h
        · exact hfresh hg
      · rcases hinv₂.cover g hg with h | h | h
        · exact Or.inl h
        · exact Or.inr (Or.inl (List.mem_append_left _ h))
        · rcases List.mem_cons.mp h with rfl | h
          · exact Or.inr (Or.inl (List.mem_append_right _ List.mem_cons_self))
          · exact Or.inr (Or.inr h)
      · exact List.mem_append_left _ (hvisits.sorted g hg)
      · have hle : state₂.unmarked.length ≤ (state.unmarked.erase f).length := hvisits.unmarked
        change state₂.unmarked.length ≤ state.unmarked.length
        omega
      · exact List.mem_append_right _ List.mem_cons_self
    · rw [if_pos hmem]
      refine ⟨state, rfl, ⟨hinv, fun _ h ↦ h, le_rfl⟩, ?_⟩
      rcases hinv.cover f hf with h | h | h
      · exact absurd h hmem
      · exact h
      · exact absurd h hfresh

variable (cg) in
/-- What the sort is for: exactly the functions from which no call cycle is reachable, each
once, and after its callees. -/
structure SortedNonRecursive (fs : List F) : Prop where
  mem_iff : ∀ f, f ∈ fs ↔ f ∈ cg.getVertices ∧ ¬ cg.CallsCycle f
  nodup : fs.Nodup
  calleesFirst : CalleesFirst cg fs

theorem topoSortLoop_spec {visitFuel : ℕ} :
    ∀ (fuel : ℕ) (state : TopoState F), TopoInvariant cg [] state →
      state.unmarked.length < fuel → state.unmarked.length < visitFuel →
      ∃ fs, topoSortLoop cg visitFuel fuel state = some fs ∧ SortedNonRecursive cg fs
  | 0, _, _, hfuel, _ => by omega
  | fuel + 1, state, hinv, hfuel, hvisit => by
    unfold topoSortLoop
    cases hlast : state.unmarked.getLast? with
    | none =>
      have hnil : state.unmarked = [] := List.getLast?_eq_none_iff.mp hlast
      refine ⟨_, rfl, ⟨fun f ↦ ⟨fun hf ↦ hinv.sorted_mem f hf, fun hf ↦ ?_⟩, hinv.sorted_nodup,
        hinv.ordered⟩⟩
      rcases hinv.cover f hf with h | h | h
      · rw [hnil] at h
        cases h
      · exact h
      · cases h
    | some f =>
      have hmem : f ∈ state.unmarked := List.mem_of_getLast? hlast
      obtain ⟨state', h', hvisits, hf⟩ := topoVisit_spec visitFuel [] f state hinv
        (hinv.unmarked_mem f hmem).1 (by simp) hvisit
      -- `f` was unmarked before the visit and is not any more
      have hlt : state'.unmarked.length < state.unmarked.length := by
        have hsub : state'.unmarked ⊆ state.unmarked.erase f := by
          intro g hg
          obtain ⟨hg', hgs⟩ := hvisits.invariant.unmarked_mem g hg
          rw [hinv.unmarked_nodup.mem_erase_iff]
          refine ⟨?_, ?_⟩
          · rintro rfl
            exact hgs hf
          · rcases hinv.cover g hg' with h | h | h
            · exact h
            · exact absurd (hvisits.sorted g h) hgs
            · cases h
        have hle := (hvisits.invariant.unmarked_nodup.subperm hsub).length_le
        rw [List.length_erase_of_mem hmem] at hle
        have := List.length_pos_of_mem hmem
        omega
      simp only [h']
      exact topoSortLoop_spec fuel state' hvisits.invariant (by omega) (by omega)

/-! ### The filter -/

omit [DecidableEq F] in
theorem keepFuncs_eq {test : F → Option Bool} {p : F → Prop} [DecidablePred p] :
    ∀ fs : List F, (∀ f ∈ fs, test f = some (decide (p f))) →
      keepFuncs test fs = some (fs.filter fun f ↦ p f)
  | [], _ => rfl
  | f :: fs, h => by
    unfold keepFuncs
    rw [h f List.mem_cons_self, keepFuncs_eq fs fun g hg ↦ h g (List.mem_cons_of_mem _ hg)]
    by_cases hf : p f <;> simp [hf]

theorem isFiltered_eq {fuel : ℕ} {f : F} :
    ∀ rs : List F, (∀ r ∈ rs, ∃ b, mayIndirectlyCall cg fuel f r = some b) →
      ∃ b, isFiltered cg fuel f rs = some b ∧ (b = true ↔ ∃ r ∈ rs, f = r ∨ cg.Reaches f r)
  | [], _ => ⟨false, rfl, by simp⟩
  | r :: rs, h => by
    obtain ⟨b, hb⟩ := h r List.mem_cons_self
    obtain ⟨b', hb', hiff'⟩ := isFiltered_eq rs fun q hq ↦ h q (List.mem_cons_of_mem _ hq)
    have hiff := mayIndirectlyCall_eq fuel f r b hb
    unfold isFiltered
    by_cases hfr : f = r
    · exact ⟨true, by rw [if_pos hfr], by simp [hfr]⟩
    · rw [if_neg hfr, hb]
      cases b with
      | true => exact ⟨true, rfl, by simp [hiff.mp rfl]⟩
      | false =>
        have hnot : ¬ cg.Reaches f r := fun hreach ↦ by cases hiff.mpr hreach
        exact ⟨b', hb', by rw [hiff']; simp [hfr, hnot]⟩

/-- One amount of fuel suffices for all the searches between functions of the graph. -/
theorem exists_fuel_of_settles
    (h : ∀ f ∈ cg.getVertices, ∀ g ∈ cg.getVertices, SearchSettles cg f g) :
    ∃ fuel, ∀ f ∈ cg.getVertices, ∀ g ∈ cg.getVertices,
      ∃ b, mayIndirectlyCall cg fuel f g = some b := by
  have hpairs : ∀ ps : List (F × F),
      (∀ p ∈ ps, ∃ fuel b, mayIndirectlyCall cg fuel p.1 p.2 = some b) →
      ∃ fuel, ∀ p ∈ ps, ∃ b, mayIndirectlyCall cg fuel p.1 p.2 = some b := by
    intro ps
    induction ps with
    | nil => exact fun _ ↦ ⟨0, by simp⟩
    | cons p ps ih =>
      intro hps
      obtain ⟨fuel₁, b, hb⟩ := hps p List.mem_cons_self
      obtain ⟨fuel₂, h₂⟩ := ih fun q hq ↦ hps q (List.mem_cons_of_mem _ hq)
      refine ⟨max fuel₁ fuel₂, fun q hq ↦ ?_⟩
      rcases List.mem_cons.mp hq with rfl | hq
      · exact ⟨b, mayIndirectlyCall_mono (le_max_left _ _) hb⟩
      · obtain ⟨b', hb'⟩ := h₂ q hq
        exact ⟨b', mayIndirectlyCall_mono (le_max_right _ _) hb'⟩
  obtain ⟨fuel, hfuel⟩ := hpairs (cg.getVertices.product cg.getVertices) fun p hp ↦ by
    obtain ⟨hf, hg⟩ := List.pair_mem_product.mp hp
    exact (mayIndirectlyCall_returns_iff p.1 p.2).mpr (h p.1 hf p.2 hg)
  exact ⟨fuel, fun f hf g hg ↦ hfuel (f, g) (List.pair_mem_product.mpr ⟨hf, hg⟩)⟩

/-- When all searches return, the sort returns what it is meant to. -/
theorem topoSortNonRecursive_spec
    (h : ∀ f ∈ cg.getVertices, ∀ g ∈ cg.getVertices, SearchSettles cg f g) :
    ∃ fuel fs, topoSortNonRecursive cg fuel = some fs ∧ SortedNonRecursive cg fs := by
  classical
  obtain ⟨fuel₀, hfuel₀⟩ := exists_fuel_of_settles h
  set fuel := max fuel₀ (cg.getVertices.length + 1) with hfueldef
  have hsearch : ∀ f ∈ cg.getVertices, ∀ g ∈ cg.getVertices,
      ∃ b, mayIndirectlyCall cg fuel f g = some b := by
    intro f hf g hg
    obtain ⟨b, hb⟩ := hfuel₀ f hf g hg
    exact ⟨b, mayIndirectlyCall_mono (le_max_left _ _) hb⟩
  have hrec : recursiveFuncs cg fuel =
      some (cg.getVertices.filter fun f ↦ cg.Reaches f f) := by
    refine keepFuncs_eq (p := fun f ↦ cg.Reaches f f) _ fun f hf ↦ ?_
    obtain ⟨b, hb⟩ := hsearch f hf f hf
    rw [hb, Option.some.injEq]
    exact Bool.eq_iff_iff.mpr ((mayIndirectlyCall_eq fuel f f b hb).trans decide_eq_true_iff.symm)
  have hkeep : keepFuncs (fun f ↦ (isFiltered cg fuel f
        (cg.getVertices.filter fun f ↦ cg.Reaches f f)).map fun filter ↦ !filter)
      cg.getVertices = some (cg.getVertices.filter fun f ↦ ¬ cg.CallsCycle f) := by
    refine keepFuncs_eq (p := fun f ↦ ¬ cg.CallsCycle f) _ fun f hf ↦ ?_
    obtain ⟨b, hb, hiff⟩ := isFiltered_eq (f := f)
      (cg.getVertices.filter fun f ↦ cg.Reaches f f)
      fun r hr ↦ hsearch f hf r (List.mem_filter.mp hr).1
    have hcycle : (b = true) ↔ cg.CallsCycle f := by
      rw [hiff, cg.callsCycle_iff]
      constructor
      · rintro ⟨r, hr, hfr⟩
        exact ⟨r, of_decide_eq_true (List.mem_filter.mp hr).2, hfr⟩
      · rintro ⟨r, hr, hfr⟩
        -- a function on a cycle is called, so it is a vertex
        obtain ⟨q, _, hqr⟩ := Relation.TransGen.tail'_iff.mp hr
        exact ⟨r, List.mem_filter.mpr ⟨cg.callees_mem q r hqr, decide_eq_true hr⟩, hfr⟩
    rw [hb, Option.map_some, Option.some.injEq]
    cases b with
    | true => simp [hcycle.mp rfl]
    | false => simp [show ¬ cg.CallsCycle f from fun hc ↦ by cases hcycle.mpr hc]
  set fs := cg.getVertices.filter fun f ↦ ¬ cg.CallsCycle f with hfs
  have hmem : ∀ f, f ∈ fs ↔ NonRecursive cg f := by
    intro f
    rw [hfs, List.mem_filter, decide_eq_true_iff]
    rfl
  have hlen : fs.length < fuel := by
    have hle : fs.length ≤ cg.getVertices.length := List.length_filter_le _ _
    have hmax : cg.getVertices.length + 1 ≤ fuel := le_max_right _ _
    omega
  obtain ⟨result, hresult, hsorted⟩ := topoSortLoop_spec fuel
    { sorted := [], unmarked := fs }
    ⟨cg.nodup.filter _, List.nodup_nil, fun f hf ↦ ⟨(hmem f).mp hf, List.not_mem_nil⟩,
      by simp, by simp, fun f hf ↦ Or.inl ((hmem f).mpr hf),
      fun before f after heq ↦ by simp at heq⟩ hlen hlen
  refine ⟨fuel, result, ?_, hsorted⟩
  unfold topoSortNonRecursive
  rw [hrec]
  change (keepFuncs _ _).bind (topoSort cg fuel) = some result
  rw [hkeep]
  exact hresult

/-! ### A sort that returned -/

omit [DecidableEq F] in
theorem keepFuncs_spec {test : F → Option Bool} : ∀ {fs kept : List F},
    keepFuncs test fs = some kept →
      (∀ f ∈ fs, ∃ b, test f = some b) ∧ ∀ f, f ∈ kept ↔ f ∈ fs ∧ test f = some true
  | [], kept, h => by
    obtain rfl := Option.some.inj h
    exact ⟨fun f hf ↦ (List.not_mem_nil hf).elim, by simp⟩
  | f :: fs, kept, h => by
    unfold keepFuncs at h
    cases hf : test f with
    | none =>
      rw [hf] at h
      cases h
    | some keep =>
      rw [hf] at h
      obtain ⟨kept', hkept, rfl⟩ := Option.map_eq_some_iff.1 h
      obtain ⟨hreturns, hmem⟩ := keepFuncs_spec hkept
      refine ⟨fun g hg ↦ ?_, fun g ↦ ?_⟩
      · rcases List.mem_cons.1 hg with rfl | hg
        · exact ⟨keep, hf⟩
        · exact hreturns g hg
      · cases keep with
        | true =>
          rw [if_pos rfl, List.mem_cons, List.mem_cons, hmem]
          constructor
          · rintro (rfl | ⟨hg, htest⟩)
            · exact ⟨Or.inl rfl, hf⟩
            · exact ⟨Or.inr hg, htest⟩
          · exact fun ⟨hg, htest⟩ ↦ hg.imp_right fun hg ↦ ⟨hg, htest⟩
        | false =>
          rw [if_neg Bool.false_ne_true, hmem, List.mem_cons]
          refine ⟨fun ⟨hg, htest⟩ ↦ ⟨Or.inr hg, htest⟩, fun ⟨hg, htest⟩ ↦ ⟨?_, htest⟩⟩
          refine hg.resolve_left ?_
          rintro rfl
          rw [hf] at htest
          cases htest

theorem isFiltered_false {fuel : ℕ} {f : F} : ∀ {rs : List F},
    isFiltered cg fuel f rs = some false → ∀ r ∈ rs, f ≠ r ∧ ¬ cg.Reaches f r
  | [], _, _, hr => (List.not_mem_nil hr).elim
  | q :: rs, h, r, hr => by
    unfold isFiltered at h
    by_cases hq : f = q
    · rw [if_pos hq] at h
      cases h
    · rw [if_neg hq] at h
      cases hsearch : mayIndirectlyCall cg fuel f q with
      | none =>
        rw [hsearch] at h
        cases h
      | some b =>
        rw [hsearch] at h
        cases b with
        | true => cases h
        | false =>
          rcases List.mem_cons.1 hr with rfl | hr
          · refine ⟨hq, fun hreach ↦ ?_⟩
            cases (mayIndirectlyCall_eq fuel f r false hsearch).2 hreach
          · exact isFiltered_false h r hr

/-- The functions of a state of the sort. -/
def TopoState.funcs (state : TopoState F) : List F :=
  state.sorted ++ state.unmarked

/-- A visit brings in no function. -/
theorem funcs_topoVisit : ∀ {fuel : ℕ} {f : F} {state state' : TopoState F},
    topoVisit cg fuel f state = some state' → state'.funcs ⊆ state.funcs
  | 0, _, _, _, h => by cases h
  | fuel + 1, f, state, state', h => by
    have hcallees : ∀ (cs : List F) {s s' : TopoState F},
        cs.foldlM (fun state c ↦ topoVisit cg fuel c state) s = some s' → s'.funcs ⊆ s.funcs := by
      intro cs
      induction cs with
      | nil =>
        intro s s' hs
        obtain rfl := Option.some.inj hs
        exact fun _ hg ↦ hg
      | cons c cs ih =>
        intro s s' hs
        rw [List.foldlM_cons] at hs
        obtain ⟨s₁, hs₁, hs⟩ := Option.bind_eq_some_iff.1 hs
        exact List.Subset.trans (ih hs) (funcs_topoVisit hs₁)
    unfold topoVisit at h
    by_cases hf : f ∈ state.unmarked
    · rw [if_neg (not_not_intro hf)] at h
      cases hfold : (cg.getCallees f).foldlM (fun state c ↦ topoVisit cg fuel c state)
          { state with unmarked := state.unmarked.erase f } with
      | none =>
        rw [hfold] at h
        cases h
      | some s =>
        rw [hfold] at h
        obtain rfl := Option.some.inj h
        have hsub := hcallees _ hfold
        intro g hg
        simp only [TopoState.funcs, List.mem_append, List.mem_singleton] at hg ⊢
        have hold : g ∈ s.funcs → g ∈ state.sorted ∨ g ∈ state.unmarked := fun hmem ↦
          (List.mem_append.1 (hsub hmem)).imp_right List.mem_of_mem_erase
        rcases hg with (hg | rfl) | hg
        · exact hold (List.mem_append_left _ hg)
        · exact Or.inr hf
        · exact hold (List.mem_append_right _ hg)
    · rw [if_pos hf] at h
      obtain rfl := Option.some.inj h
      exact fun _ hg ↦ hg

theorem subset_topoSortLoop {visitFuel : ℕ} : ∀ {fuel : ℕ} {state : TopoState F} {fs : List F},
    topoSortLoop cg visitFuel fuel state = some fs → fs ⊆ state.funcs
  | 0, _, _, h => by cases h
  | fuel + 1, state, fs, h => by
    unfold topoSortLoop at h
    cases hlast : state.unmarked.getLast? with
    | none =>
      rw [hlast] at h
      obtain rfl := Option.some.inj h
      exact List.subset_append_left _ _
    | some f =>
      rw [hlast] at h
      dsimp only at h
      cases hvisit : topoVisit cg visitFuel f state with
      | none =>
        rw [hvisit] at h
        cases h
      | some s =>
        rw [hvisit] at h
        exact List.Subset.trans (subset_topoSortLoop h) (funcs_topoVisit hvisit)

/-- Where the sort returns, it returns vertices from which no call cycle is reachable. -/
theorem nonRecursive_of_topoSortNonRecursive {fuel : ℕ} {fs : List F}
    (h : topoSortNonRecursive cg fuel = some fs) : ∀ f ∈ fs, NonRecursive cg f := by
  obtain ⟨recFuncs, hrec, h⟩ := Option.bind_eq_some_iff.1 h
  obtain ⟨funcs, hfuncs, h⟩ := Option.bind_eq_some_iff.1 h
  obtain ⟨hreturns, hrecMem⟩ := keepFuncs_spec hrec
  intro f hf
  obtain ⟨hvertex, hfilter⟩ :=
    ((keepFuncs_spec hfuncs).2 f).1 (subset_topoSortLoop h hf)
  obtain ⟨b, hb, hnot⟩ := Option.map_eq_some_iff.1 hfilter
  obtain rfl : b = false := by simpa using hnot
  refine ⟨hvertex, fun hcycle ↦ ?_⟩
  obtain ⟨r, hr, hfr⟩ := (cg.callsCycle_iff f).1 hcycle
  -- a function on a cycle is called, so it is a vertex
  obtain ⟨q, -, hqr⟩ := Relation.TransGen.tail'_iff.mp hr
  have hvertex' : r ∈ cg.getVertices := cg.callees_mem q r hqr
  obtain ⟨b, hb'⟩ := hreturns r hvertex'
  have hmem : r ∈ recFuncs := by
    refine (hrecMem r).2 ⟨hvertex', ?_⟩
    rw [hb', (mayIndirectlyCall_eq fuel r r b hb').2 hr]
  obtain ⟨hne, hreach⟩ := isFiltered_false hb r hmem
  exact hfr.elim hne hreach

variable (cg) in
/-- On the call graph, the sort returns the functions from which no call cycle is reachable, each once
and after the functions it may call, and the search for a call chain returns the right answer for all
functions. -/
def TopoSortCorrect : Prop :=
  (∃ fuel fs, topoSortNonRecursive cg fuel = some fs ∧ SortedNonRecursive cg fs) ∧
    ∀ f ∈ cg.getVertices, ∀ g ∈ cg.getVertices,
      ∃ fuel b, mayIndirectlyCall cg fuel f g = some b ∧ (b = true ↔ cg.Reaches f g)

/-- The sort and the search are right exactly on the call graphs where, for all functions `f` and `g`:
if no chain leads from `f` to `g` then no cycle is reachable from `f`; if one does, then going from `f`
to the first callee that is `g` or leads to `g`, and so on, arrives at `g`, and the callees listed before
those reach no cycle. -/
theorem topoSortNonRecursive_correct_iff (cg : CallGraph F) :
    TopoSortCorrect cg ↔
      ∀ f ∈ cg.getVertices, ∀ g ∈ cg.getVertices, SearchSettles cg f g := by
  constructor
  · rintro ⟨_, hsearch⟩ f hf g hg
    obtain ⟨fuel, b, hb, _⟩ := hsearch f hf g hg
    exact searchSettles_of_returns fuel f g b hb
  · intro h
    refine ⟨topoSortNonRecursive_spec h, fun f hf g hg ↦ ?_⟩
    obtain ⟨fuel, b, hb⟩ := (mayIndirectlyCall_returns_iff f g).mpr (h f hf g hg)
    exact ⟨fuel, b, hb, mayIndirectlyCall_eq fuel f g b hb⟩

/-- A function 0 that calls a function 1, which calls itself. -/
def callsRecursive : CallGraph (Fin 2) where
  vertices := [0, 1]
  callGraph := fun _ ↦ [1]
  mayCall := fun _ ↦ []
  nodup := by decide
  callees_mem := by decide

/-- On a program whose main function calls a recursive one, the search for a chain from main to main
does not return, and so neither does the sort. -/
theorem not_topoSortCorrect_callsRecursive :
    (∀ fuel, topoSortNonRecursive callsRecursive fuel = none) ∧
      ¬ TopoSortCorrect callsRecursive := by
  have hsearch : ∀ (fuel : ℕ) (f : Fin 2), mayIndirectlyCall callsRecursive fuel f 0 = none := by
    intro fuel
    induction fuel with
    | zero => exact fun _ ↦ rfl
    | succ fuel ih =>
      intro f
      rw [mayIndirectlyCall]
      change mayIndirectlyCallLoop _ 0 [1] false = none
      rw [mayIndirectlyCallLoop_cons, if_neg (by decide), ih 1]
      rfl
  constructor
  · intro fuel
    have hrec : recursiveFuncs callsRecursive fuel = none := by
      unfold recursiveFuncs
      change keepFuncs _ [0, 1] = none
      unfold keepFuncs
      rw [hsearch fuel 0]
    unfold topoSortNonRecursive
    rw [hrec]
    rfl
  · rintro ⟨_, hreturns⟩
    obtain ⟨fuel, b, hb, _⟩ := hreturns 0 (by decide) 0 (by decide)
    rw [hsearch fuel 0] at hb
    cases hb

end Sipc
