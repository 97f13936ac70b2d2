import Sipc.Semantic.Cfa.CubicSolverHeap

/-!
# The cubic solver computes the least solution

`propagateNodeChanges` at a node settles the heap when only that node was dirty, also when the node has
been merged away in the meantime (`propagateNodeChanges_spec`). So after every call that adds a
constraint all live nodes are clean, every constraint added so far holds of the sets the solver keeps
(`Solves`), and these sets lie below every solution. They are the least solution
(`mem_getPossibleFunctionsForExpr_iff`).
-/

set_option autoImplicit false
set_option relaxedAutoImplicit false

namespace Sipc.CubicSolver

open Library

variable {N I : Type} {name : CubicId → N}

/-! ### Activation -/

/-- A piece of the computation that leaves nothing to be processed and forgets no waiting
constraint. -/
structure Settled (D : CubicId → Prop) (name : CubicId → N) (s s' : CubicSolver N I) : Prop where
  settles : Settles name D (fun _ ↦ False) s s'
  keeps : Keeps [] s s'

theorem Settled.trans {D : CubicId → Prop} {s s' s'' : CubicSolver N I}
    (h : Settled D name s s') (h' : Settled (fun _ ↦ False) name s' s'') :
    Settled D name s s'' :=
  ⟨h.settles.trans h'.settles (fun _ hx _ ↦ hx) (fun _ hx ↦ hx),
    h.keeps.trans h'.keeps h'.settles.grows⟩

theorem Settled.refl {s : CubicSolver N I} (wf : WellFormed name (fun _ ↦ False) s) :
    Settled (fun _ ↦ False) name s s :=
  ⟨Settles.refl wf fun _ ↦ not_false, Keeps.refl s⟩

/-- What `propagateNodeChanges` guarantees when it is called for the node `x`. -/
structure Propagates (name : CubicId → N) (x : CubicId) (s s' : CubicSolver N I) : Prop extends
    Settled (fun y ↦ y = x) name s s' where
  below : ∀ (S : N → I → Prop) val, Below S val s → Below S val s'

/-- What activating the inclusion `p` guarantees. -/
structure Activates (name : CubicId → N) (p : N × N) (s s' : CubicSolver N I) : Prop extends
    Settled (fun _ ↦ False) name s s' where
  linked : Linked s' p
  below : ∀ (S : N → I → Prop) val, Below S val s → (∀ j, S p.1 j → S p.2 j) → Below S val s'

/-- Calls of `propagate` that return do what `Propagates` says. -/
def PropagateSpec (name : CubicId → N)
    (propagate : CubicId → CubicSolver N I → Option (CubicSolver N I)) : Prop :=
  ∀ x s s', WellFormed name (fun _ ↦ False) s → x < s.created → propagate x s = some s' →
    Propagates name x s s'

theorem activateWith_spec {iter : IterationOrder} {fuel : ℕ}
    {propagate : CubicId → CubicSolver N I → Option (CubicSolver N I)}
    (hpropagate : PropagateSpec name propagate) {p : N × N} {s s' : CubicSolver N I}
    (wf : WellFormed name (fun _ ↦ False) s)
    (h : activateWith iter fuel propagate p.1 p.2 s = some s') : Activates name p s s' := by
  unfold activateWith at h
  split at h
  · next a b ha hb =>
    split_ifs at h with hab
    · obtain rfl := Option.some.inj h
      exact ⟨Settled.refl wf, ⟨a, b, ha, hb, Or.inl hab⟩, fun S val hs _ ↦ hs⟩
    · have hla := wf.live _ _ ha
      have hlb := wf.live _ _ hb
      have hedge := newEdge_modify s a b
      simp only at h
      set s₁ := (s.modify a fun x ↦ { x with supsets := insert b x.supsets }).modify b
        fun x ↦ { x with subsets := insert a x.subsets }
      have hlink : Linked s₁ p :=
        ⟨a, b, ha, hb, Or.inr ((hedge.supsets a b).mpr (Or.inr ⟨rfl, rfl⟩))⟩
      have hset₁ := hedge.settles wf hla hlb hab
      split at h
      · cases h
      · next n s₂ hkill =>
        obtain ⟨hset₂, hkeeps₂, hdag₂, hbelow₂⟩ := killCyclesAt_spec iter fuel a s₁ n s₂
          hset₁.wellFormed ((hedge.live_iff a).mpr hla) hkill
        have hsource : s₂.dagmapping p.1 = some n := by
          have hsame : s₁.dagmapping p.1 = s₁.dagmapping (name a) := by
            rw [hedge.dagmapping, ha]
            exact hla.symm
          exact (hset₂.grows.dagmapping_eq hsame).trans hdag₂
        rw [hsource] at h
        have hprop := hpropagate n s₂ s' hset₂.wellFormed
          (hset₂.wellFormed.lt _ _ hsource) h
        have hset := (hset₁.trans hset₂ (fun _ hx hx' ↦ absurd hx hx') (fun _ hx ↦ hx)).trans
          hprop.settles (fun _ hx hx' ↦ absurd hx hx') (fun _ hx ↦ hx)
        refine ⟨⟨hset, ?_⟩, ?_, ?_⟩
        · exact (hedge.keeps.trans hkeeps₂ hset₂.grows).trans hprop.keeps hprop.settles.grows
        · exact hprop.settles.grows.linked p (hset₂.grows.linked p hlink)
        · intro S val hs hincl
          refine hprop.below S val (hbelow₂ S val (hedge.below hs (wf.lt _ _ ha) (wf.lt _ _ hb) ?_))
          intro i hi
          exact (hs.mapped _ _ hb i).mp (hincl i ((hs.mapped _ _ ha i).mpr hi))
  · cases h

/-- Activating the inclusions of a list one after the other. -/
theorem activateAll_spec {activate : N → N → CubicSolver N I → Option (CubicSolver N I)}
    (hactivate : ∀ (p : N × N) (s s' : CubicSolver N I), WellFormed name (fun _ ↦ False) s →
      activate p.1 p.2 s = some s' → Activates name p s s') :
    ∀ (ps : List (N × N)) (s s' : CubicSolver N I), WellFormed name (fun _ ↦ False) s →
      ps.foldlM (fun s pair ↦ activate pair.1 pair.2 s) s = some s' →
      Settled (fun _ ↦ False) name s s' ∧ (∀ p ∈ ps, Linked s' p) ∧
        ∀ (S : N → I → Prop) val, Below S val s → (∀ p ∈ ps, ∀ j, S p.1 j → S p.2 j) →
          Below S val s'
  | [], s, s', wf, h => by
    obtain rfl := Option.some.inj h
    exact ⟨Settled.refl wf, by simp, fun S val hs _ ↦ hs⟩
  | p :: ps, s, s', wf, h => by
    rw [List.foldlM_cons] at h
    obtain ⟨s₁, h₁, h₂⟩ := Option.bind_eq_some_iff.mp h
    have hact := hactivate p s s₁ wf h₁
    obtain ⟨hset, hlinked, hbelow⟩ := activateAll_spec hactivate ps s₁ s'
      hact.settles.wellFormed h₂
    refine ⟨hact.toSettled.trans hset, ?_, ?_⟩
    · intro q hq
      rcases List.mem_cons.mp hq with rfl | hq
      · exact hset.settles.grows.linked q hact.linked
      · exact hlinked q hq
    · intro S val hs hincl
      exact hbelow S val (hact.below S val hs (hincl p List.mem_cons_self))
        fun q hq ↦ hincl q (List.mem_cons_of_mem _ hq)

/-! ### The first loop of propagation -/

/-- The node `x`, while it is live, has no constraint waiting for a function it already holds at `i`,
unless it is clean anyway. -/
def Handled (name : CubicId → N) (x : CubicId) (i : I) (s : CubicSolver N I) : Prop :=
  Live name s x → Clean s x ∨
    ((s.nodes x).bitvector i = true → (s.nodes x).conditionalConstraints i = [])

theorem Handled.settles {x : CubicId} {i : I} {s s' : CubicSolver N I} (h : Handled name x i s)
    (hset : Settles name (fun _ ↦ False) (fun _ ↦ False) s s') : Handled name x i s' := by
  intro hx
  rcases hset.live_cases hx with hclean | ⟨hx₀, htouch⟩
  · exact Or.inl hclean
  · rcases h hx₀ with hclean | hnone
    · exact Or.inl (hclean.untouched hset.grows htouch)
    · rw [htouch.1, htouch.2.1]
      exact Or.inr hnone

/-- What one round, and so the whole first loop, guarantees for the indices of `done`. -/
structure Activated (name : CubicId → N) (x : CubicId) (s s' : CubicSolver N I) : Prop where
  settles : Settles name (fun _ ↦ False) (fun y ↦ y = x) s s'
  keeps : Keeps [] s s'
  handled : ∀ j, Handled name x j s → Handled name x j s'
  below : ∀ (S : N → I → Prop) val, Below S val s → Below S val s'

theorem Activated.refl {x : CubicId} {s : CubicSolver N I} (wf : WellFormed name (fun _ ↦ False) s) : Activated name x s s :=
  ⟨(Settles.refl wf fun _ ↦ not_false).trans (Settles.refl wf fun _ ↦ not_false)
    (fun _ hy _ ↦ hy.elim) (fun _ hy ↦ hy.elim), Keeps.refl s, fun _ hj ↦ hj, fun _ _ hs ↦ hs⟩

section Loops

variable [DecidableEq I] {x : CubicId} {s s' : CubicSolver N I}

theorem activateIndex_spec {activate : N → N → CubicSolver N I → Option (CubicSolver N I)}
    (hactivate : ∀ (p : N × N) (s s' : CubicSolver N I), WellFormed name (fun _ ↦ False) s →
      activate p.1 p.2 s = some s' → Activates name p s s')
    (wf : WellFormed name (fun _ ↦ False) s) {i : I}
    (h : activateIndex activate x s i = some s') :
    Activated name x s s' ∧ Handled name x i s' := by
  unfold activateIndex at h
  split_ifs at h with hi
  · simp only at h
    set s₁ := s.modify x fun x ↦ { x with
      conditionalConstraints := Function.update x.conditionalConstraints i [] } with hs₁
    have hchange : ChangedAt x s s₁ := changedAt_modify (fun _ ↦ rfl) (fun _ ↦ rfl) fun _ _ h ↦ h
    have hbits : ∀ y, (s₁.nodes y).bitvector = (s.nodes y).bitvector := by
      intro y
      rw [hs₁, modify_nodes]
      split_ifs with hy
      · rw [hy]
      · rfl
    have hconds : ∀ y j, (s₁.nodes y).conditionalConstraints j =
        if y = x ∧ j = i then [] else (s.nodes y).conditionalConstraints j := by
      intro y j
      rw [hs₁, modify_nodes]
      by_cases hy : y = x
      · subst hy
        by_cases hj : j = i <;> simp [hj]
      · simp [hy]
    obtain ⟨hset, hlinked, hbelow⟩ := activateAll_spec hactivate _ s₁ s' (hchange.wellFormed wf) h
    refine ⟨⟨?_, ?_, ?_, ?_⟩, ?_⟩
    · exact (hchange.settles wf).trans hset.settles (fun _ hx _ ↦ hx) fun _ hx ↦ hx.elim
    · -- the constraints taken out of the list have become edges
      rintro m j p ⟨y, hy, hp⟩
      have hm : s₁.dagmapping m = some y := by rw [hchange.dagmapping, hy]
      by_cases hyi : y = x ∧ j = i
      · obtain ⟨rfl, rfl⟩ := hyi
        exact Or.inr (Or.inl (hlinked p hp))
      · have hwait : Waits s₁ m j p := ⟨y, hm, by rw [hconds, if_neg hyi]; exact hp⟩
        exact hset.keeps m j p hwait
    · intro j hj
      refine Handled.settles (fun hx ↦ ?_) hset.settles
      rcases hj ((hchange.live_iff x).mp hx) with ⟨hnone, hsup⟩ | hnone
      · refine Or.inl ⟨fun k hk ↦ ?_, fun y hy k hk ↦ ?_⟩
        · rw [hbits] at hk
          rw [hconds]
          split_ifs
          · rfl
          · exact hnone k hk
        · rw [hbits] at hk ⊢
          rw [hchange.supsets] at hy
          exact hsup y hy k hk
      · refine Or.inr fun hk ↦ ?_
        rw [hbits] at hk
        rw [hconds]
        split_ifs
        · rfl
        · exact hnone hk
    · intro S val hs
      refine hbelow S val ⟨?_, ?_, ?_, ?_, ?_⟩ fun p hp ↦ hs.conds x i p hp (hs.bits x i hi)
      · rw [hchange.dagmapping]
        exact hs.mapped
      · intro y j hj
        rw [hbits] at hj
        exact hs.bits y j hj
      · intro y j p hp
        rw [hconds] at hp
        split_ifs at hp
        · cases hp
        · exact hs.conds y j p hp
      · intro y z hz
        rw [hchange.supsets] at hz
        rw [hchange.created]
        exact hs.supsets y z hz
      · intro y z hz
        rw [hchange.subsets] at hz
        rw [hchange.created]
        exact hs.subsets y z hz
    · refine Handled.settles (fun _ ↦ Or.inr fun _ ↦ ?_) hset.settles
      rw [hconds, if_pos ⟨rfl, rfl⟩]
  · obtain rfl := Option.some.inj h
    exact ⟨Activated.refl wf, fun _ ↦ Or.inr fun hi' ↦ absurd hi' hi⟩

theorem activateIndices_spec {activate : N → N → CubicSolver N I → Option (CubicSolver N I)}
    (hactivate : ∀ (p : N × N) (s s' : CubicSolver N I), WellFormed name (fun _ ↦ False) s →
      activate p.1 p.2 s = some s' → Activates name p s s') :
    ∀ (is : List I) (s s' : CubicSolver N I), WellFormed name (fun _ ↦ False) s →
      is.foldlM (activateIndex activate x) s = some s' →
      Activated name x s s' ∧ ∀ i ∈ is, Handled name x i s'
  | [], s, s', wf, h => by
    obtain rfl := Option.some.inj h
    exact ⟨Activated.refl wf, by simp⟩
  | i :: is, s, s', wf, h => by
    rw [List.foldlM_cons] at h
    obtain ⟨s₁, h₁, h₂⟩ := Option.bind_eq_some_iff.mp h
    obtain ⟨hact, hi⟩ := activateIndex_spec hactivate wf h₁
    obtain ⟨hact', hrest⟩ := activateIndices_spec hactivate is s₁ s' hact.settles.wellFormed h₂
    refine ⟨⟨?_, ?_, ?_, ?_⟩, ?_⟩
    · exact hact.settles.trans hact'.settles (fun _ hx _ ↦ hx) (fun _ hx ↦ hx)
    · exact hact.keeps.trans hact'.keeps hact'.settles.grows
    · exact fun j hj ↦ hact'.handled j (hact.handled j hj)
    · exact fun S val hs ↦ hact'.below S val (hact.below S val hs)
    · intro j hj
      rcases List.mem_cons.mp hj with rfl | hj
      · exact hact'.handled j hi
      · exact hrest j hj

end Loops

/-! ### The second loop of propagation -/

/-- The bits of `x`, while it is live, have reached the variable of `y`, unless `x` is clean
anyway. -/
def Reached (name : CubicId → N) (x y : CubicId) (s : CubicSolver N I) : Prop :=
  Live name s x → Clean s x ∨
    ∀ i, (s.nodes x).bitvector i = true → BitAt s (name y) i

theorem Reached.settles {x y : CubicId} {s s' : CubicSolver N I} (h : Reached name x y s)
    (hset : Settles name (fun _ ↦ False) (fun _ ↦ False) s s') : Reached name x y s' := by
  intro hx
  rcases hset.live_cases hx with hclean | ⟨hx₀, htouch⟩
  · exact Or.inl hclean
  · rcases h hx₀ with hclean | hbits
    · exact Or.inl (hclean.untouched hset.grows htouch)
    · rw [htouch.1]
      exact Or.inr fun i hi ↦ hset.grows.bitAt _ i (hbits i hi)

theorem propagateTo_spec {propagate : CubicId → CubicSolver N I → Option (CubicSolver N I)}
    (hpropagate : PropagateSpec name propagate) {x y : CubicId} {s s' : CubicSolver N I}
    (wf : WellFormed name (fun _ ↦ False) s) (hx : x < s.created) (hy : y < s.created)
    (h : propagateTo propagate x s y = some s') :
    Settled (fun _ ↦ False) name s s' ∧ Reached name x y s' ∧
      (s.dagmapping (name y) = s.dagmapping (name x) → Covered name s' x) ∧
      ∀ (S : N → I → Prop) val, Below S val s → (∀ i, val x i → val y i) → Below S val s' := by
  unfold propagateTo at h
  simp only at h
  split_ifs at h with hyx
  set s₁ := s.modify y fun n ↦ { n with
    bitvector := fun i ↦ n.bitvector i || (s.nodes x).bitvector i } with hs₁
  have hchange : ChangedAt y s s₁ := changedAt_modify (fun _ ↦ rfl) (fun _ ↦ rfl) fun n i hi ↦ by
    simp [hi]
  have hx₁ : s₁.nodes x = s.nodes x := hchange.other x (Ne.symm hyx)
  have hy₁ : ∀ i, (s₁.nodes y).bitvector i =
      ((s.nodes y).bitvector i || (s.nodes x).bitvector i) := by
    intro i
    rw [hs₁, modify_nodes, if_pos rfl]
  have hprop := hpropagate y s₁ s' (hchange.wellFormed wf) hy h
  have hkeep₁ : Keeps [] s s₁ := by
    rintro m i p ⟨z, hz, hp⟩
    refine Or.inl ⟨z, by rw [hchange.dagmapping, hz], ?_⟩
    rw [hs₁, modify_nodes]
    split_ifs with hzy
    · subst hzy
      exact hp
    · exact hp
  have hset : Settled (fun _ ↦ False) name s s' :=
    ⟨(hchange.settles wf).trans hprop.settles (fun _ hz hz' ↦ absurd hz hz') (fun _ hz ↦ hz),
      hkeep₁.trans hprop.keeps hprop.settles.grows⟩
  -- the bits of `x` are now bits of `y`, and those have reached the node that `y` stands for
  have hreach : ∀ i, (s₁.nodes x).bitvector i = true → BitAt s' (name y) i := by
    intro i hi
    have hyi : (s'.nodes y).bitvector i = true :=
      hprop.settles.grows.bits y i (by rw [hy₁, ← hx₁, hi, Bool.or_true])
    rcases hprop.settles.stale y (by rw [hset.settles.grows.created]; exact hy) with
      hcov | hfalse | ⟨hne, _⟩
    · exact hcov i hyi
    · exact hfalse.elim
    · exact absurd rfl hne
  refine ⟨hset, ?_, ?_, ?_⟩
  · intro hlive
    rcases hprop.settles.live x hlive with hclean | hfalse | ⟨_, _, htouch⟩
    · exact Or.inl hclean
    · exact hfalse.elim
    · rw [htouch.1]
      exact Or.inr hreach
  · intro hdag i hi
    rcases hprop.settles.stale x (by rw [hset.settles.grows.created]; exact hx) with
      hcov | hfalse | ⟨_, hbits⟩
    · exact hcov i hi
    · exact hfalse.elim
    · rw [hbits] at hi
      obtain ⟨z, hz, hzi⟩ := hreach i hi
      exact ⟨z, by rw [← hset.settles.grows.dagmapping_eq hdag]; exact hz, hzi⟩
  · intro S val hs hval
    refine hprop.below S val ⟨?_, ?_, ?_, ?_, ?_⟩
    · rw [hchange.dagmapping]
      exact hs.mapped
    · intro z i hi
      by_cases hzy : z = y
      · subst hzy
        rw [hy₁, Bool.or_eq_true] at hi
        rcases hi with hi | hi
        · exact hs.bits z i hi
        · exact hval i (hs.bits x i hi)
      · rw [hchange.other z hzy] at hi
        exact hs.bits z i hi
    · intro z i p hp
      have hsame : (s₁.nodes z).conditionalConstraints = (s.nodes z).conditionalConstraints := by
        rw [hs₁, modify_nodes]
        split_ifs with hzy
        · rw [hzy]
        · rfl
      rw [hsame] at hp
      exact hs.conds z i p hp
    · intro z w hw
      rw [hchange.supsets] at hw
      rw [hchange.created]
      exact hs.supsets z w hw
    · intro z w hw
      rw [hchange.subsets] at hw
      rw [hchange.created]
      exact hs.subsets z w hw

theorem propagateToAll_spec {propagate : CubicId → CubicSolver N I → Option (CubicSolver N I)}
    (hpropagate : PropagateSpec name propagate) {x : CubicId} :
    ∀ (ys : List CubicId) (s s' : CubicSolver N I), WellFormed name (fun _ ↦ False) s →
      x < s.created → (∀ y ∈ ys, y < s.created) →
      ys.foldlM (propagateTo propagate x) s = some s' →
      Settled (fun _ ↦ False) name s s' ∧ (∀ y ∈ ys, Reached name x y s') ∧
        (∀ y ∈ ys, s.dagmapping (name y) = s.dagmapping (name x) → Covered name s' x) ∧
        ∀ (S : N → I → Prop) val, Below S val s → (∀ y ∈ ys, ∀ i, val x i → val y i) →
          Below S val s'
  | [], s, s', wf, _, _, h => by
    obtain rfl := Option.some.inj h
    exact ⟨Settled.refl wf, by simp, by simp, fun S val hs _ ↦ hs⟩
  | y :: ys, s, s', wf, hx, hys, h => by
    rw [List.foldlM_cons] at h
    obtain ⟨s₁, h₁, h₂⟩ := Option.bind_eq_some_iff.mp h
    obtain ⟨hset₁, hreach₁, hcov₁, hbelow₁⟩ :=
      propagateTo_spec hpropagate wf hx (hys y List.mem_cons_self) h₁
    have hcreated := hset₁.settles.grows.created
    obtain ⟨hset₂, hreach₂, hcov₂, hbelow₂⟩ := propagateToAll_spec hpropagate ys s₁ s'
      hset₁.settles.wellFormed (by rw [hcreated]; exact hx)
      (fun z hz ↦ by rw [hcreated]; exact hys z (List.mem_cons_of_mem _ hz)) h₂
    refine ⟨hset₁.trans hset₂, ?_, ?_, ?_⟩
    · intro z hz
      rcases List.mem_cons.mp hz with rfl | hz
      · exact hreach₁.settles hset₂.settles
      · exact hreach₂ z hz
    · intro z hz hdag
      rcases List.mem_cons.mp hz with rfl | hz
      · refine hset₂.settles.covered ?_ (hcov₁ hdag)
        rw [hset₂.settles.grows.created, hcreated]
        exact hx
      · exact hcov₂ z hz (hset₁.settles.grows.dagmapping_eq hdag)
    · intro S val hs hval
      exact hbelow₂ S val (hbelow₁ S val hs (hval y List.mem_cons_self))
        fun z hz ↦ hval z (List.mem_cons_of_mem _ hz)

/-! ### Propagation -/

section Propagate

variable [DecidableEq I] {indices : List I} {iter : IterationOrder}

/-- `propagateNodeChanges` processes the node it is called for, live or merged away, and leaves no
other node to be processed. -/
theorem propagateNodeChanges_spec (hindices : ∀ i, i ∈ indices) :
    ∀ fuel : ℕ, PropagateSpec name (propagateNodeChanges (N := N) indices iter fuel) := by
  intro fuel
  induction fuel with
  | zero => intro x s s' _ _ h; cases h
  | succ fuel ih =>
    intro x s s' wf hx h
    unfold propagateNodeChanges at h
    obtain ⟨s₁, h₁, h₂⟩ := Option.bind_eq_some_iff.mp h
    obtain ⟨hact, hhandled⟩ := activateIndices_spec
      (fun p s s' wf h ↦ activateWith_spec ih wf h) indices s s₁ wf h₁
    have wf₁ := hact.settles.wellFormed
    have hx₁ : x < s₁.created := by rw [hact.settles.grows.created]; exact hx
    have hys : ∀ y ∈ iter.list (s₁.nodes x).supsets, y ∈ (s₁.nodes x).supsets :=
      fun y hy ↦ (iter.mem_list _ _).mp hy
    obtain ⟨hset, hreach, hcov, hbelow⟩ := propagateToAll_spec ih _ s₁ s' wf₁ hx₁
      (fun y hy ↦ wf₁.known x y hx₁ (hys y hy)) h₂
    have hx' : x < s'.created := by rw [hset.settles.grows.created]; exact hx₁
    have hclean : Live name s' x → Clean s' x := by
      intro hlive
      rcases hset.settles.live_cases hlive with hclean | ⟨hlive₁, htouch⟩
      · exact hclean
      by_contra hdirty
      have hdirty₁ : ¬ Clean s₁ x := fun h ↦ hdirty (h.untouched hset.settles.grows htouch)
      refine hdirty ⟨fun i hi ↦ ?_, fun y' hy' i hi ↦ ?_⟩
      · rw [htouch.1] at hi
        rw [htouch.2.1]
        exact (hhandled i (hindices i) hlive₁).resolve_left hdirty₁ hi
      · -- the superset `y'` of now stands for a superset `y` at loop entry, which was processed
        obtain ⟨y, hy, m, hm, hm'⟩ := htouch.2.2 y' hy'
        have hylive := (wf₁.supsets x y hlive₁ hy).1
        have hname : s'.dagmapping (name y) = some y' :=
          (hset.settles.grows.dagmapping_eq (hylive.trans hm.symm)).trans hm'
        obtain ⟨z, hz, hzi⟩ :=
          (hreach y ((iter.mem_list _ _).mpr hy) hlive).resolve_left hdirty i hi
        exact Option.some.inj (hz.symm.trans hname) ▸ hzi
    have hcovered : Covered name s' x := by
      by_cases hlive₁ : Live name s₁ x
      · exact hset.settles.covered hx' hlive₁.covered
      · obtain ⟨y, hy, hdag⟩ := wf₁.stale x hx₁ hlive₁ not_false
        exact hcov y ((iter.mem_list _ _).mpr hy) hdag
    have hall := hact.settles.trans hset.settles (fun _ hz _ ↦ hz) fun _ hz ↦ hz.elim
    refine ⟨⟨⟨hall.wellFormed, hall.grows, fun z hz ↦ ?_, fun z hz ↦ ?_⟩, ?_⟩, ?_⟩
    · by_cases hzx : z = x
      · subst hzx
        exact Or.inl (hclean hz)
      · rcases hall.live z hz with hc | hzx' | ⟨_, hlive, htouch⟩
        · exact Or.inl hc
        · exact absurd hzx' hzx
        · exact Or.inr (Or.inr ⟨hzx, hlive, htouch⟩)
    · by_cases hzx : z = x
      · subst hzx
        exact Or.inl hcovered
      · rcases hall.stale z hz with hc | hzx' | ⟨_, hbits⟩
        · exact Or.inl hc
        · exact absurd hzx' hzx
        · exact Or.inr (Or.inr ⟨hzx, hbits⟩)
    · exact hact.keeps.trans hset.keeps hset.settles.grows
    · intro S val hs
      have hs₁ := hact.below S val hs
      exact hbelow S val hs₁ fun y hy i hi ↦ (hs₁.supsets x y (hys y hy)).2 i hi

/-- Propagating from a node whose bits or waiting constraints have just changed. -/
theorem ChangedAt.settled (hindices : ∀ i, i ∈ indices) {fuel : ℕ} {x : CubicId}
    {s s₁ s' : CubicSolver N I} (hchange : ChangedAt x s s₁) (hkeeps : Keeps [] s s₁)
    (wf : WellFormed name (fun _ ↦ False) s) (hx : x < s.created)
    (h : propagateNodeChanges indices iter fuel x s₁ = some s') :
    Settled (fun _ ↦ False) name s s' ∧ Grows s₁ s' ∧ Keeps [] s₁ s' ∧
      ∀ (S : N → I → Prop) val, Below S val s₁ → Below S val s' := by
  have hprop := propagateNodeChanges_spec hindices fuel x s₁ s'
    (hchange.wellFormed wf) (by rw [hchange.created]; exact hx) h
  refine ⟨⟨?_, hkeeps.trans hprop.keeps hprop.settles.grows⟩, hprop.settles.grows, hprop.keeps,
    hprop.below⟩
  exact (hchange.settles wf).trans hprop.settles (fun _ hz hz' ↦ absurd hz hz') fun _ hz ↦ hz

end Propagate

/-! ### Adding constraints -/

/-- The heap accounts for a constraint that was added. -/
def Recorded (s : CubicSolver N I) : SetConstraint N I → Prop
  | .elementof f n => BitAt s n f
  | .subseteq a b => Linked s (a, b)
  | .conditional f n a b => Waits s n f (a, b) ∨ Linked s (a, b)

theorem Recorded.mono {s s' : CubicSolver N I} (hgrows : Grows s s') (hkeeps : Keeps [] s s')
    {c : SetConstraint N I} (h : Recorded s c) : Recorded s' c := by
  cases c with
  | elementof f n => exact hgrows.bitAt n f h
  | subseteq a b => exact hgrows.linked _ h
  | conditional f n a b =>
    rcases h with h | h
    · rcases hkeeps n f _ h with h | h | h
      · exact Or.inl h
      · exact Or.inr h
      · cases h
    · exact Or.inr (hgrows.linked _ h)

/-- What holds between two calls that add constraints: nothing is left to be processed, every
constraint is accounted for, and the heap lies below every solution. -/
structure Solves (constraints : List (SetConstraint N I)) (name : CubicId → N)
    (s : CubicSolver N I) : Prop where
  wellFormed : WellFormed name (fun _ ↦ False) s
  clean : ∀ x, Live name s x → Clean s x
  recorded : ∀ c ∈ constraints, Recorded s c
  below : ∀ S, SetConstraint.IsSolution constraints S → ∃ val, Below S val s

theorem solves_new (name : CubicId → N) : Solves [] name (new N I) := by
  have hnone : ∀ m x, (new N I).dagmapping m ≠ some x := fun m x h ↦ by cases h
  refine ⟨⟨?_, ?_, ?_, ?_, ?_, ?_, ?_⟩, ?_, by simp, fun S _ ↦ ⟨fun _ _ ↦ True, ?_, ?_, ?_, ?_, ?_⟩⟩
  · exact fun x hx ↦ absurd hx (Nat.not_lt_zero x)
  · exact fun m x h ↦ absurd h (hnone m x)
  · exact fun m x h ↦ absurd h (hnone m x)
  · exact fun x _ h ↦ absurd h (hnone _ x)
  · exact fun x _ h ↦ absurd h (hnone _ x)
  · exact fun x _ hx ↦ absurd hx (Nat.not_lt_zero x)
  · exact fun x hx ↦ absurd hx (Nat.not_lt_zero x)
  · exact fun x h ↦ absurd h (hnone _ x)
  · exact fun m x h ↦ absurd h (hnone m x)
  · exact fun x i h ↦ by cases h
  · exact fun x i p h ↦ by cases h
  · exact fun x y h ↦ absurd h (Finset.notMem_empty y)
  · exact fun x y h ↦ absurd h (Finset.notMem_empty y)

/-- A settled piece of computation keeps what holds between calls. -/
theorem Solves.settled {constraints : List (SetConstraint N I)} {s s' : CubicSolver N I}
    (h : Solves constraints name s) (hset : Settled (fun _ ↦ False) name s s')
    {c : SetConstraint N I} (hc : Recorded s' c)
    (hbelow : ∀ S val, SetConstraint.IsSolution (constraints ++ [c]) S → Below S val s →
      Below S val s') : Solves (constraints ++ [c]) name s' := by
  refine ⟨hset.settles.wellFormed, fun x hx ↦ ?_, fun d hd ↦ ?_, fun S hS ↦ ?_⟩
  · rcases hset.settles.live_cases hx with hclean | ⟨hx₀, htouch⟩
    · exact hclean
    · exact (h.clean x hx₀).untouched hset.settles.grows htouch
  · rcases List.mem_append.mp hd with hd | hd
    · exact (h.recorded d hd).mono hset.settles.grows hset.keeps
    · obtain rfl := List.mem_singleton.mp hd
      exact hc
  · obtain ⟨val, hval⟩ := h.below S fun d hd ↦ hS d (List.mem_append_left _ hd)
    exact ⟨val, hbelow S val hS hval⟩

section Add

variable [DecidableEq N]

/-- A variable that gets its first node, where it has none. -/
def fresh (m : N) (s : CubicSolver N I) : CubicSolver N I where
  nodes := Function.update s.nodes s.created (CubicSolverNode.new N I)
  created := s.created + 1
  dagmapping := Function.update s.dagmapping m (some s.created)

theorem addEmptyVariableIfNecessary_cases (s : CubicSolver N I) (m : N) :
    s.addEmptyVariableIfNecessary m = s ∨
      (s.dagmapping m = none ∧ s.addEmptyVariableIfNecessary m = fresh m s) := by
  unfold CubicSolver.addEmptyVariableIfNecessary
  split
  · exact Or.inl rfl
  · next hm => exact Or.inr ⟨hm, rfl⟩

section Fresh

variable {s : CubicSolver N I} {m : N}

theorem fresh_nodes_of_ne {x : CubicId} (hx : x ≠ s.created) : (fresh m s).nodes x = s.nodes x :=
  Function.update_of_ne hx _ _

theorem fresh_nodes_created : (fresh m s).nodes s.created = CubicSolverNode.new N I :=
  Function.update_self _ _ _

theorem fresh_dagmapping_mono (hm : s.dagmapping m = none) {m' : N} {x : CubicId}
    (hx : s.dagmapping m' = some x) : (fresh m s).dagmapping m' = some x := by
  refine (Function.update_of_ne ?_ _ _).trans hx
  rintro rfl
  rw [hm] at hx
  cases hx

theorem fresh_dagmapping_cases {m' : N} {x : CubicId} (hx : (fresh m s).dagmapping m' = some x) :
    (m' = m ∧ x = s.created) ∨ s.dagmapping m' = some x := by
  by_cases hmm : m' = m
  · subst hmm
    have heq : some s.created = some x := (Function.update_self m' _ s.dagmapping).symm.trans hx
    exact Or.inl ⟨rfl, (Option.some.inj heq).symm⟩
  · exact Or.inr ((Function.update_of_ne hmm _ _).symm.trans hx)

/-- The heap stays well formed; the new node is live, and the other live nodes are those from
before. -/
theorem WellFormed.fresh (wf : WellFormed name (fun _ ↦ False) s) (hm : s.dagmapping m = none) :
    ∃ name', WellFormed name' (fun _ ↦ False) (fresh m s) ∧
      (∀ x, x ≠ s.created → Live name' (CubicSolver.fresh m s) x → Live name s x) ∧
      ∀ x, Live name s x → Live name' (CubicSolver.fresh m s) x := by
  have hlt : ∀ m' x, s.dagmapping m' = some x → x ≠ s.created :=
    fun m' x hx ↦ (wf.lt m' x hx).ne
  set name' := Function.update name s.created m with hname'
  have hname : ∀ x, x ≠ s.created → name' x = name x := fun x hx ↦ Function.update_of_ne hx _ _
  have hfresh : Live name' (CubicSolver.fresh m s) s.created := by
    have hself : name' s.created = m := Function.update_self _ _ _
    unfold Live
    rw [hself]
    exact Function.update_self _ _ _
  have hlive : ∀ x, Live name s x → Live name' (CubicSolver.fresh m s) x := by
    intro x hx
    unfold Live
    rw [hname x (hlt _ x hx)]
    exact fresh_dagmapping_mono hm hx
  have hlive' : ∀ x, x ≠ s.created → Live name' (CubicSolver.fresh m s) x → Live name s x := by
    intro x hx hl
    unfold Live at hl
    rw [hname x hx] at hl
    exact (fresh_dagmapping_cases hl).resolve_left fun h ↦ hx h.2
  have hempty : ∀ y, y ∉ ((CubicSolver.fresh m s).nodes s.created).supsets ∧
      y ∉ ((CubicSolver.fresh m s).nodes s.created).subsets := by
    rw [fresh_nodes_created]
    exact fun y ↦ ⟨Finset.notMem_empty y, Finset.notMem_empty y⟩
  refine ⟨name', ⟨?_, ?_, ?_, ?_, ?_, ?_, ?_⟩, hlive', hlive⟩
  · intro x hx
    by_cases hxc : x = s.created
    · subst hxc
      exact Option.isSome_iff_exists.mpr ⟨_, hfresh⟩
    · have hx' : x < s.created := lt_of_le_of_ne (Nat.lt_succ_iff.mp hx) hxc
      obtain ⟨y, hy⟩ := Option.isSome_iff_exists.mp (wf.total x hx')
      rw [hname x hxc, fresh_dagmapping_mono hm hy]
      rfl
  · intro m' x hx
    rcases fresh_dagmapping_cases hx with ⟨_, rfl⟩ | hx
    · exact Nat.lt_succ_self _
    · exact Nat.lt_succ_of_lt (wf.lt m' x hx)
  · intro m' x hx
    rcases fresh_dagmapping_cases hx with ⟨_, rfl⟩ | hx
    · exact hfresh
    · exact hlive x (wf.live m' x hx)
  · intro x y hx hy
    by_cases hxc : x = s.created
    · exact absurd (hxc ▸ hy) (hempty y).1
    · rw [fresh_nodes_of_ne hxc] at hy
      obtain ⟨hyl, hsub, hne⟩ := wf.supsets x y (hlive' x hxc hx) hy
      exact ⟨hlive y hyl, by rw [fresh_nodes_of_ne (hlt _ y hyl)]; exact hsub, hne⟩
  · intro x y hx hy
    by_cases hxc : x = s.created
    · exact absurd (hxc ▸ hy) (hempty y).2
    · rw [fresh_nodes_of_ne hxc] at hy
      obtain ⟨hyl, hsup⟩ := wf.subsets x y (hlive' x hxc hx) hy
      exact ⟨hlive y hyl, by rw [fresh_nodes_of_ne (hlt _ y hyl)]; exact hsup⟩
  · intro x y hx hy
    by_cases hxc : x = s.created
    · exact absurd (hxc ▸ hy) (hempty y).1
    · rw [fresh_nodes_of_ne hxc] at hy
      have hx' : x < s.created := lt_of_le_of_ne (Nat.lt_succ_iff.mp hx) hxc
      exact Nat.lt_succ_of_lt (wf.known x y hx' hy)
  · intro x hx hstale _
    have hxc : x ≠ s.created := by
      rintro rfl
      exact hstale hfresh
    have hx' : x < s.created := lt_of_le_of_ne (Nat.lt_succ_iff.mp hx) hxc
    obtain ⟨y, hy, heq⟩ := wf.stale x hx' (fun hl ↦ hstale (hlive x hl)) not_false
    have hyc : y ≠ s.created := (wf.known x y hx' hy).ne
    refine ⟨y, by rw [fresh_nodes_of_ne hxc]; exact hy, ?_⟩
    obtain ⟨z, hz⟩ := Option.isSome_iff_exists.mp (wf.total x hx')
    rw [hname x hxc, hname y hyc, fresh_dagmapping_mono hm hz, fresh_dagmapping_mono hm (heq.trans hz)]

end Fresh

/-- A variable that gets its first node. -/
theorem Solves.addEmptyVariableIfNecessary {constraints : List (SetConstraint N I)}
    {s : CubicSolver N I} (h : Solves constraints name s) (m : N) :
    ∃ name', Solves constraints name' (s.addEmptyVariableIfNecessary m) := by
  rcases addEmptyVariableIfNecessary_cases s m with heq | ⟨hm, heq⟩
  · exact ⟨name, heq.symm ▸ h⟩
  rw [heq]
  obtain ⟨wf, hclean, hrecorded, hbelow⟩ := h
  obtain ⟨name', wf', hlive', hlive⟩ := wf.fresh hm
  have hlt : ∀ m' x, s.dagmapping m' = some x → x ≠ s.created :=
    fun m' x hx ↦ (wf.lt m' x hx).ne
  have hdag : ∀ m' x, s.dagmapping m' = some x → (fresh m s).dagmapping m' = some x :=
    fun _ _ hx ↦ fresh_dagmapping_mono hm hx
  have hempty : ∀ y, y ∉ ((fresh m s).nodes s.created).supsets ∧
      y ∉ ((fresh m s).nodes s.created).subsets := by
    rw [fresh_nodes_created]
    exact fun y ↦ ⟨Finset.notMem_empty y, Finset.notMem_empty y⟩
  refine ⟨name', wf', ?_, ?_, ?_⟩
  · intro x hx
    by_cases hxc : x = s.created
    · subst hxc
      rw [Clean, fresh_nodes_created]
      exact ⟨fun i hi ↦ (by cases hi), fun y hy ↦ absurd hy (Finset.notMem_empty y)⟩
    · obtain ⟨hnone, hsup⟩ := hclean x (hlive' x hxc hx)
      refine ⟨?_, fun y hy i hi ↦ ?_⟩
      · rw [fresh_nodes_of_ne hxc]
        exact hnone
      · rw [fresh_nodes_of_ne hxc] at hy hi
        have hyl := (wf.supsets x y (hlive' x hxc hx) hy).1
        rw [fresh_nodes_of_ne (hlt _ y hyl)]
        exact hsup y hy i hi
  · intro c hc
    have hlinked : ∀ p, Linked s p → Linked (fresh m s) p := by
      rintro p ⟨x, y, hx, hy, hxy⟩
      exact ⟨x, y, hdag _ x hx, hdag _ y hy, by rw [fresh_nodes_of_ne (hlt _ x hx)]; exact hxy⟩
    have hrec := hrecorded c hc
    cases c with
    | elementof f n =>
      obtain ⟨x, hx, hi⟩ := hrec
      exact ⟨x, hdag _ x hx, by rw [fresh_nodes_of_ne (hlt _ x hx)]; exact hi⟩
    | subseteq a b => exact hlinked _ hrec
    | conditional f n a b =>
      rcases hrec with ⟨x, hx, hp⟩ | hrec
      · exact Or.inl ⟨x, hdag _ x hx, by rw [fresh_nodes_of_ne (hlt _ x hx)]; exact hp⟩
      · exact Or.inr (hlinked _ hrec)
  · intro S hS
    obtain ⟨val, hval⟩ := hbelow S hS
    have hval' : ∀ x, x ≠ s.created → Function.update val s.created (S m) x = val x :=
      fun x hx ↦ Function.update_of_ne hx _ _
    refine ⟨Function.update val s.created (S m), ⟨?_, ?_, ?_, ?_, ?_⟩⟩
    · intro m' x hx i
      rcases fresh_dagmapping_cases hx with ⟨rfl, rfl⟩ | hx
      · rw [Function.update_self]
      · rw [hval' x (hlt _ x hx)]
        exact hval.mapped m' x hx i
    · intro x i hi
      by_cases hxc : x = s.created
      · subst hxc
        rw [fresh_nodes_created] at hi
        cases hi
      · rw [fresh_nodes_of_ne hxc] at hi
        rw [hval' x hxc]
        exact hval.bits x i hi
    · intro x i p hp
      by_cases hxc : x = s.created
      · subst hxc
        rw [fresh_nodes_created] at hp
        cases hp
      · rw [fresh_nodes_of_ne hxc] at hp
        rw [hval' x hxc]
        exact hval.conds x i p hp
    · intro x y hy
      by_cases hxc : x = s.created
      · exact absurd (hxc ▸ hy) (hempty y).1
      · rw [fresh_nodes_of_ne hxc] at hy
        obtain ⟨hylt, hle⟩ := hval.supsets x y hy
        rw [hval' x hxc, hval' y hylt.ne]
        exact ⟨Nat.lt_succ_of_lt hylt, hle⟩
    · intro x y hy
      by_cases hxc : x = s.created
      · exact absurd (hxc ▸ hy) (hempty y).2
      · rw [fresh_nodes_of_ne hxc] at hy
        obtain ⟨hylt, hle⟩ := hval.subsets x y hy
        rw [hval' x hxc, hval' y hylt.ne]
        exact ⟨Nat.lt_succ_of_lt hylt, hle⟩

variable [DecidableEq I] {indices : List I} {iter : IterationOrder}

/-- Every call that adds a constraint restores what holds between calls. -/
theorem Solves.addConstraint (hindices : ∀ i, i ∈ indices) {fuel : ℕ}
    {constraints : List (SetConstraint N I)} {s s' : CubicSolver N I}
    (hs : Solves constraints name s) {c : SetConstraint N I}
    (h : CubicSolver.addConstraint indices iter fuel s c = some s') :
    ∃ name', Solves (constraints ++ [c]) name' s' := by
  have hmem : ∀ S, SetConstraint.IsSolution (constraints ++ [c]) S → c.Satisfies S :=
    fun S hS ↦ hS c (List.mem_append_right _ List.mem_cons_self)
  cases c with
  | elementof f n =>
    obtain ⟨name', hs₁⟩ := hs.addEmptyVariableIfNecessary n
    unfold CubicSolver.addConstraint addElementofConstraint at h
    simp only at h
    split at h
    · cases h
    next x hx =>
    set s₁ := s.addEmptyVariableIfNecessary n
    set s₂ := s₁.modify x fun x ↦ { x with
      bitvector := Function.update x.bitvector f true } with hs₂
    have hchange : ChangedAt x s₁ s₂ := changedAt_modify (fun _ ↦ rfl) (fun _ ↦ rfl) fun n i hi ↦ by
      by_cases hif : i = f <;> simp [hif, hi]
    have hconds : ∀ y, (s₂.nodes y).conditionalConstraints =
        (s₁.nodes y).conditionalConstraints := by
      intro y
      rw [hs₂, modify_nodes]
      split_ifs with hy
      · rw [hy]
      · rfl
    have hkeeps : Keeps [] s₁ s₂ := by
      rintro m i p ⟨y, hy, hp⟩
      exact Or.inl ⟨y, hy, by rw [hconds]; exact hp⟩
    obtain ⟨hset, hgrows, _, hbelow⟩ := hchange.settled hindices hkeeps hs₁.wellFormed
      (hs₁.wellFormed.lt _ _ hx) h
    refine ⟨name', hs₁.settled hset (hgrows.bitAt n f ⟨x, hx, ?_⟩) ?_⟩
    · rw [hs₂, modify_nodes, if_pos rfl]
      simp
    · intro S val hS hval
      refine hbelow S val ⟨hval.mapped, fun y i hi ↦ ?_, ?_, ?_, ?_⟩
      · rw [hs₂, modify_nodes] at hi
        split_ifs at hi with hy
        · subst hy
          by_cases hif : i = f
          · subst hif
            exact (hval.mapped n y hx i).mp (hmem S hS)
          · exact hval.bits y i (by simpa [hif] using hi)
        · exact hval.bits y i hi
      · intro y i p hp
        rw [hconds] at hp
        exact hval.conds y i p hp
      · intro y z hz
        rw [hchange.supsets] at hz
        exact hval.supsets y z hz
      · intro y z hz
        rw [hchange.subsets] at hz
        exact hval.subsets y z hz
  | subseteq a b =>
    obtain ⟨name₁, hs₁⟩ := hs.addEmptyVariableIfNecessary a
    obtain ⟨name₂, hs₂⟩ := hs₁.addEmptyVariableIfNecessary b
    have hact := activateWith_spec (p := (a, b))
      (propagateNodeChanges_spec hindices fuel) hs₂.wellFormed h
    exact ⟨name₂, hs₂.settled hact.toSettled hact.linked
      fun S val hS hval ↦ hact.below S val hval (hmem S hS)⟩
  | conditional f n a b =>
    obtain ⟨name₁, hs₁⟩ := hs.addEmptyVariableIfNecessary n
    obtain ⟨name₂, hs₂⟩ := hs₁.addEmptyVariableIfNecessary a
    obtain ⟨name₃, hs₃⟩ := hs₂.addEmptyVariableIfNecessary b
    unfold CubicSolver.addConstraint addConditionalConstraint at h
    simp only at h
    split at h
    · cases h
    next x hx =>
    set s₁ := ((s.addEmptyVariableIfNecessary n).addEmptyVariableIfNecessary
      a).addEmptyVariableIfNecessary b
    set s₂ := s₁.modify x fun x ↦ { x with
      conditionalConstraints := Function.update x.conditionalConstraints f
        (x.conditionalConstraints f ++ [(a, b)]) } with hs₂'
    have hchange : ChangedAt x s₁ s₂ := changedAt_modify (fun _ ↦ rfl) (fun _ ↦ rfl)
      fun _ _ hi ↦ hi
    have hbits : ∀ y, (s₂.nodes y).bitvector = (s₁.nodes y).bitvector := by
      intro y
      rw [hs₂', modify_nodes]
      split_ifs with hy
      · rw [hy]
      · rfl
    have hconds : ∀ y i, (s₂.nodes y).conditionalConstraints i =
        if y = x ∧ i = f then (s₁.nodes y).conditionalConstraints i ++ [(a, b)]
        else (s₁.nodes y).conditionalConstraints i := by
      intro y i
      rw [hs₂', modify_nodes]
      by_cases hy : y = x
      · subst hy
        by_cases hif : i = f
        · subst hif
          simp
        · simp [hif]
      · simp [hy]
    have hkeeps : Keeps [] s₁ s₂ := by
      rintro m i p ⟨y, hy, hp⟩
      refine Or.inl ⟨y, hy, ?_⟩
      rw [hconds]
      split_ifs
      · exact List.mem_append_left _ hp
      · exact hp
    obtain ⟨hset, hgrows, hkeeps', hbelow⟩ := hchange.settled hindices hkeeps hs₃.wellFormed
      (hs₃.wellFormed.lt _ _ hx) h
    refine ⟨name₃, hs₃.settled hset ?_ ?_⟩
    · have hrec : Recorded s₂ (.conditional f n a b) :=
        Or.inl ⟨x, hx, by rw [hconds, if_pos ⟨rfl, rfl⟩]; simp⟩
      exact hrec.mono hgrows hkeeps'
    · intro S val hS hval
      refine hbelow S val ⟨hval.mapped, fun y i hi ↦ ?_, ?_, ?_, ?_⟩
      · rw [hbits] at hi
        exact hval.bits y i hi
      · intro y i p hp hvi
        rw [hconds] at hp
        split_ifs at hp with hyi
        · obtain ⟨rfl, rfl⟩ := hyi
          rcases List.mem_append.mp hp with hp | hp
          · exact hval.conds y i p hp hvi
          · obtain rfl := List.mem_singleton.mp hp
            exact hmem S hS ((hval.mapped n y hx i).mpr hvi)
        · exact hval.conds y i p hp hvi
      · intro y z hz
        rw [hchange.supsets] at hz
        exact hval.supsets y z hz
      · intro y z hz
        rw [hchange.subsets] at hz
        exact hval.subsets y z hz

theorem solves_foldlM (hindices : ∀ i, i ∈ indices) {fuel : ℕ} :
    ∀ (cs done : List (SetConstraint N I)) (name : CubicId → N) (s s' : CubicSolver N I),
      Solves done name s → cs.foldlM (CubicSolver.addConstraint indices iter fuel) s = some s' →
      ∃ name', Solves (done ++ cs) name' s'
  | [], done, name, s, s', hs, h => by
    obtain rfl := Option.some.inj h
    exact ⟨name, by rw [List.append_nil]; exact hs⟩
  | c :: cs, done, name, s, s', hs, h => by
    rw [List.foldlM_cons] at h
    obtain ⟨s₁, h₁, h₂⟩ := Option.bind_eq_some_iff.mp h
    obtain ⟨name₁, hs₁⟩ := hs.addConstraint hindices h₁
    obtain ⟨name', hs'⟩ := solves_foldlM hindices cs (done ++ [c]) name₁ s₁ s' hs₁ h₂
    exact ⟨name', by rw [List.append_assoc] at hs'; exact hs'⟩

end Add

/-- Between calls the sets of the solver are the least solution. -/
theorem Solves.bitAt_iff {constraints : List (SetConstraint N I)} {s : CubicSolver N I}
    (h : Solves constraints name s) (n : N) (f : I) :
    BitAt s n f ↔ SetConstraint.Least constraints n f := by
  have hlinked : ∀ p, Linked s p → ∀ g, BitAt s p.1 g → BitAt s p.2 g := by
    rintro p ⟨x, y, hx, hy, hxy⟩ g ⟨x', hx', hg⟩
    obtain rfl := Option.some.inj (hx.symm.trans hx')
    rcases hxy with rfl | hxy
    · exact ⟨x, hy, hg⟩
    · exact ⟨y, hy, (h.clean x (h.wellFormed.live _ _ hx)).2 y hxy g hg⟩
  refine SetConstraint.eq_least (S := BitAt s) (fun c hc ↦ ?_) (fun S hS n f hf ↦ ?_) n f
  · have hrec := h.recorded c hc
    cases c with
    | elementof f n => exact hrec
    | subseteq a b => exact hlinked _ hrec
    | conditional f n a b =>
      rintro ⟨x, hx, hf⟩
      rcases hrec with ⟨x', hx', hp⟩ | hrec
      · obtain rfl := Option.some.inj (hx.symm.trans hx')
        rw [(h.clean x (h.wellFormed.live _ _ hx)).1 f hf] at hp
        cases hp
      · exact hlinked _ hrec
  · obtain ⟨x, hx, hi⟩ := hf
    obtain ⟨val, hval⟩ := h.below S hS
    exact (hval.mapped n x hx f).mpr (hval.bits x f hi)

theorem mem_getPossibleFunctionsForExpr {indices : List I} (hindices : ∀ i, i ∈ indices)
    (s : CubicSolver N I) (n : N) (f : I) :
    f ∈ getPossibleFunctionsForExpr indices s n ↔ BitAt s n f := by
  unfold getPossibleFunctionsForExpr
  constructor
  · intro hf
    split at hf
    · cases hf
    · next x hx => exact ⟨x, hx, (List.mem_filter.mp hf).2⟩
  · rintro ⟨x, hx, hi⟩
    rw [hx]
    exact List.mem_filter.mpr ⟨hindices f, hi⟩

/-- Once all the calls that add the constraints have returned, the functions of a node are those the
least solution of the constraints assigns to it, for every list of functions, every sequence of calls
and every iteration order. So neither the order of the calls nor the addresses of nodes matter. -/
theorem getPossibleFunctionsForExpr_least {N F : Type} [DecidableEq N] [DecidableEq F]
    (functions : List F) (iter : IterationOrder) (fuel : ℕ)
    (constraints : List (SetConstraint N {f // f ∈ functions}))
    (s : CubicSolver N {f // f ∈ functions})
    (h : solveConstraints functions.attach iter fuel constraints = some s) :
    (∀ n f, f ∈ getPossibleFunctionsForExpr functions.attach s n ↔
      SetConstraint.Least constraints n f) ∧
    ∀ (iter' : IterationOrder) (fuel' : ℕ) (constraints' : List _) (s' : CubicSolver N _),
      constraints'.Perm constraints →
      solveConstraints functions.attach iter' fuel' constraints' = some s' →
      ∀ n f, f ∈ getPossibleFunctionsForExpr functions.attach s' n ↔
        f ∈ getPossibleFunctionsForExpr functions.attach s n := by
  have hleast : ∀ iter fuel (cs : List (SetConstraint N {f // f ∈ functions})) s,
      solveConstraints functions.attach iter fuel cs = some s → ∀ n f,
      f ∈ getPossibleFunctionsForExpr functions.attach s n ↔ SetConstraint.Least cs n f := by
    intro iter fuel cs s hs n f
    obtain ⟨name, hsolves⟩ := solves_foldlM (List.mem_attach functions) cs [] (fun _ ↦ n) _ s
      (solves_new _) hs
    rw [mem_getPossibleFunctionsForExpr (List.mem_attach functions)]
    exact hsolves.bitAt_iff n f
  refine ⟨hleast iter fuel constraints s h, ?_⟩
  intro iter' fuel' constraints' s' hperm hs' n f
  rw [hleast _ _ _ _ hs', hleast _ _ _ _ h]
  have hsame : ∀ S, SetConstraint.IsSolution constraints' S ↔
      SetConstraint.IsSolution constraints S :=
    fun S ↦ ⟨fun hS c hc ↦ hS c (hperm.mem_iff.mpr hc), fun hS c hc ↦ hS c (hperm.mem_iff.mp hc)⟩
  exact ⟨fun hl S hS ↦ hl S ((hsame S).mpr hS), fun hl S hS ↦ hl S ((hsame S).mp hS)⟩

/-- The variables of a cycle that a conditional constraint closes. -/
theorem getPossibleFunctionsForExpr_least_cycle :
    (⟨8, by decide⟩ : {f // f ∈ [7, 8]}) ∈ getPossibleFunctionsForExpr [7, 8].attach
        ((solveConstraints (N := ℕ) [7, 8].attach .creation 9
          [.conditional ⟨7, by decide⟩ 2 0 1, .subseteq 1 0, .elementof ⟨7, by decide⟩ 2,
            .elementof ⟨8, by decide⟩ 1]).get (by decide)) 0 ↔
      SetConstraint.Least (F := {f // f ∈ [7, 8]}) [.conditional ⟨7, by decide⟩ 2 0 1,
        .subseteq 1 0, .elementof ⟨7, by decide⟩ 2, .elementof ⟨8, by decide⟩ 1] 0
        ⟨8, by decide⟩ :=
  (getPossibleFunctionsForExpr_least (N := ℕ) [7, 8] .creation 9
    [.conditional ⟨7, by decide⟩ 2 0 1, .subseteq 1 0, .elementof ⟨7, by decide⟩ 2,
      .elementof ⟨8, by decide⟩ 1] _ (Option.some_get (by decide)).symm).1 0 ⟨8, by decide⟩

end Sipc.CubicSolver
