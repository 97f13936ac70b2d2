import Mathlib.Algebra.BigOperators.Group.Finset.Basic
import Mathlib.Algebra.GroupWithZero.Nat
import Mathlib.Algebra.Order.BigOperators.Group.Finset
import Mathlib.Data.Prod.Lex
import Sipc.Library.CallCycles
import Sipc.Semantic.Cfa.CubicSolverCalls

/-!
# The cubic solver terminates

Every call that adds a constraint returns, if the calls of `findPath` made along the way do
(`addConstraint_terminates`). A merge leaves fewer nodes in use; activating a constraint that waits
takes it off the heap for good, as long as nothing is merged. So the pair of these two numbers is the
`load` that decreases, and between two decreases the edges do not change (`Eases`).

In between, `propagateNodeChanges` follows edges, also from nodes that were merged away. Those keep the
edges they had: each leads to a node that was in use then, so that along such edges one only meets nodes
merged away later, and in the end nodes in use (`Ready.stale`). The nodes in use form no cycle. So every
walk along edges ends (`Ready.acc`).
-/

set_option autoImplicit false
set_option relaxedAutoImplicit false

namespace Sipc.CubicSolver

open Library Relation

variable {N I : Type} {name : CubicId → N}

/-! ### The load -/

open Classical in
/-- The number of nodes in use. -/
noncomputable def nodesInUse (s : CubicSolver N I) : ℕ :=
  ((Finset.range s.created).filter (InGraph s)).card

/-- The number of constraints that wait at some node. -/
def waitingConstraints (indices : List I) (s : CubicSolver N I) : ℕ :=
  ∑ x ∈ Finset.range s.created,
    (indices.map fun i ↦ ((s.nodes x).conditionalConstraints i).length).sum

/-- What decreases: the nodes in use, and then the constraints that wait. -/
noncomputable def load (indices : List I) (s : CubicSolver N I) : ℕ ×ₗ ℕ :=
  toLex (nodesInUse s, waitingConstraints indices s)

/-- The load decreases, or it stays and the edges do not change. -/
def Eases (indices : List I) (s s' : CubicSolver N I) : Prop :=
  load indices s' < load indices s ∨
    (load indices s' = load indices s ∧ ∀ x, (s'.nodes x).supsets = (s.nodes x).supsets)

section Load

variable {indices : List I} {s s' s'' : CubicSolver N I}

theorem Eases.refl (s : CubicSolver N I) : Eases indices s s :=
  Or.inr ⟨rfl, fun _ ↦ rfl⟩

theorem Eases.le (h : Eases indices s s') : load indices s' ≤ load indices s := by
  rcases h with h | h
  · exact h.le
  · exact h.1.le

theorem Eases.trans (h : Eases indices s s') (h' : Eases indices s' s'') : Eases indices s s'' := by
  rcases h with h | ⟨h, hedges⟩
  · exact Or.inl (h'.le.trans_lt h)
  · rcases h' with h' | ⟨h', hedges'⟩
    · exact Or.inl (h ▸ h')
    · exact Or.inr ⟨h'.trans h, fun x ↦ (hedges' x).trans (hedges x)⟩

theorem nodesInUse_congr (hcreated : s'.created = s.created)
    (hdag : s'.dagmapping = s.dagmapping) : nodesInUse s' = nodesInUse s := by
  classical
  unfold nodesInUse
  rw [hcreated]
  refine congrArg Finset.card (Finset.filter_congr fun x _ ↦ ?_)
  rw [InGraph, InGraph, hdag]

/-- The load is the same where the same nodes are in use and the same constraints wait. -/
theorem load_congr (hcreated : s'.created = s.created) (hdag : s'.dagmapping = s.dagmapping)
    (hcond : ∀ x, (s'.nodes x).conditionalConstraints = (s.nodes x).conditionalConstraints) :
    load indices s' = load indices s := by
  rw [load, load, nodesInUse_congr hcreated hdag]
  simp only [waitingConstraints, hcreated, hcond]

theorem ChangedAt.eases {x : CubicId} (h : ChangedAt x s s')
    (hcond : ∀ y, (s'.nodes y).conditionalConstraints = (s.nodes y).conditionalConstraints) :
    Eases indices s s' :=
  Or.inr ⟨load_congr h.created h.dagmapping hcond, h.supsets⟩

theorem eases_addBits (node sups : CubicId) (s : CubicSolver N I) :
    Eases indices s (addBits node sups s) := by
  refine (changedAt_include s node sups).eases fun y ↦ ?_
  rw [modify_nodes]
  split_ifs with h
  · rw [h]
  · rfl

theorem NewEdge.load_eq {a b : CubicId} (h : NewEdge a b s s') :
    load indices s' = load indices s :=
  load_congr h.created h.dagmapping h.conditional

/-- A merge leaves fewer nodes in use. -/
theorem Merged.nodesInUse_lt {n1 n2 : CubicId} (h : Merged n1 n2 s s') (h₁ : InGraph s n1)
    (h₂ : InGraph s n2) (hlt : n2 < s.created) (hne : n1 ≠ n2) :
    nodesInUse s' < nodesInUse s := by
  classical
  have hold := h.inGraph_iff h₁ hne
  unfold nodesInUse
  rw [h.created]
  refine Finset.card_lt_card (Finset.ssubset_iff_subset_ne.mpr ⟨fun x hx ↦ ?_, fun heq ↦ ?_⟩)
  · rw [Finset.mem_filter] at hx ⊢
    exact ⟨hx.1, ((hold x).mp hx.2).1⟩
  · have hmem : n2 ∈ (Finset.range s.created).filter (InGraph s) :=
      Finset.mem_filter.mpr ⟨Finset.mem_range.mpr hlt, h₂⟩
    rw [← heq] at hmem
    exact ((hold n2).mp (Finset.mem_filter.mp hmem).2).2 rfl

theorem load_lt_of_nodesInUse (h : nodesInUse s' < nodesInUse s) :
    load indices s' < load indices s :=
  Prod.Lex.toLex_lt_toLex.mpr (Or.inl h)

variable [DecidableEq I]

theorem clear_conditional (node : CubicId) (i : I) (s : CubicSolver N I) (x : CubicId) (j : I) :
    ((clear node i s).nodes x).conditionalConstraints j =
      if x = node ∧ j = i then [] else (s.nodes x).conditionalConstraints j := by
  rw [clear, modify_nodes]
  by_cases hx : x = node
  · subst hx
    by_cases hj : j = i <;> simp [hj]
  · simp [hx]

/-- Where no constraint waits, clearing changes nothing. -/
theorem clear_eases_of_nil {node : CubicId} {i : I}
    (h : (s.nodes node).conditionalConstraints i = []) : Eases indices s (clear node i s) := by
  refine (changedAt_clear s node i).eases fun x ↦ funext fun j ↦ ?_
  rw [← clear, clear_conditional]
  split_ifs with hxj
  · rw [hxj.1, hxj.2, h]
  · rfl

/-- Clearing constraints that wait takes them off the load. -/
theorem clear_load_lt {node : CubicId} {i : I} (hnode : node < s.created) (hi : i ∈ indices)
    (h : (s.nodes node).conditionalConstraints i ≠ []) :
    load indices (clear node i s) < load indices s := by
  refine Prod.Lex.toLex_lt_toLex.mpr (Or.inr ⟨nodesInUse_congr rfl rfl, ?_⟩)
  have hle : ∀ x, ∀ j, (((clear node i s).nodes x).conditionalConstraints j).length ≤
      ((s.nodes x).conditionalConstraints j).length := by
    intro x j
    rw [clear_conditional]
    split_ifs
    · exact Nat.zero_le _
    · exact le_rfl
  have hlt : ∀ l : List I, i ∈ l →
      (l.map fun j ↦ (((clear node i s).nodes node).conditionalConstraints j).length).sum <
        (l.map fun j ↦ ((s.nodes node).conditionalConstraints j).length).sum := by
    intro l hl
    refine List.sum_lt_sum _ _ (fun j _ ↦ hle node j) ⟨i, hl, ?_⟩
    rw [clear_conditional, if_pos ⟨rfl, rfl⟩]
    exact List.length_pos_of_ne_nil h
  exact Finset.sum_lt_sum (fun x _ ↦ List.sum_le_sum fun j _ ↦ hle x j)
    ⟨node, Finset.mem_range.mpr hnode, hlt indices hi⟩

end Load

/-! ### What the calls rest on -/

/-- An edge from a node that was merged away, from its end. -/
def StaleEdge (s : CubicSolver N I) (y x : CubicId) : Prop :=
  x < s.created ∧ ¬ InGraph s x ∧ Edge s x y

/-- The constraints that wait are about the variables of `M`. -/
def WaitsAbout (M : N → Prop) (s : CubicSolver N I) : Prop :=
  ∀ x i, ∀ p ∈ (s.nodes x).conditionalConstraints i, M p.1 ∧ M p.2

/-- The variables of `M` have nodes. -/
def Mapped (M : N → Prop) (s : CubicSolver N I) : Prop :=
  ∀ m, M m → (s.dagmapping m).isSome

/-- What holds while a call runs, as far as it returns. `M` are the variables that had nodes when the
call started. -/
structure Ready (name : CubicId → N) (created : ℕ) (M : N → Prop) (s : CubicSolver N I) : Prop extends
    Running name created s where
  mapped : Mapped M s
  waiting : WaitsAbout M s
  stale : WellFounded (StaleEdge s)

theorem staleEdge_changedAt {x : CubicId} {s s' : CubicSolver N I} (hchange : ChangedAt x s s') :
    StaleEdge s' = StaleEdge s := by
  funext y z
  rw [StaleEdge, StaleEdge, InGraph, InGraph, Edge, Edge, hchange.created, hchange.dagmapping,
    hchange.supsets]

section Ready

variable {created : ℕ} {M : N → Prop} {s s' : CubicSolver N I}

theorem Ready.changedAt {x : CubicId} (h : Ready name created M s) (hchange : ChangedAt x s s')
    (hcond : ∀ i, ∀ p ∈ (s'.nodes x).conditionalConstraints i, M p.1 ∧ M p.2) :
    Ready name created M s' := by
  refine ⟨h.toRunning.changedAt hchange, fun m hm ↦ ?_, fun y i p hp ↦ ?_,
    staleEdge_changedAt hchange ▸ h.stale⟩
  · rw [hchange.dagmapping]
    exact h.mapped m hm
  · by_cases hy : y = x
    · subst hy
      exact hcond i p hp
    · rw [hchange.other y hy] at hp
      exact h.waiting y i p hp

theorem Ready.clear [DecidableEq I] (h : Ready name created M s) (node : CubicId) (i : I) :
    Ready name created M (clear node i s) := by
  have hchange : ChangedAt node s (CubicSolver.clear node i s) := changedAt_clear s node i
  refine h.changedAt hchange fun j p hp ↦ ?_
  rw [clear_conditional] at hp
  split_ifs at hp
  · cases hp
  · exact h.waiting node j p hp

theorem Ready.addBits (h : Ready name created M s) (node sups : CubicId) :
    Ready name created M (addBits node sups s) := by
  refine h.changedAt (changedAt_include s node sups) fun i p hp ↦ h.waiting sups i p ?_
  rw [CubicSolver.addBits, modify_nodes, if_pos rfl] at hp
  exact hp

theorem Ready.supset_lt (h : Ready name created M s) {x y : CubicId} (hx : x < created)
    (hy : y ∈ (s.nodes x).supsets) : y < created := by
  rw [← h.created] at hx ⊢
  exact h.wellFormed.known x y hx hy

/-- Along edges every walk ends: from a node that was merged away it passes through nodes merged away
later, and the nodes in use form no cycle. -/
theorem Ready.acc (h : Ready name created M s) :
    ∀ x, x < created → Acc (fun y x ↦ Edge s x y) x := by
  have hlive := h.wellFormed.inGraph_iff
  have hgraph : ∀ x, InGraph s x → Acc (fun y x ↦ Edge s x y) x := by
    intro x hx
    have hin : ∀ v w, InGraph s v ∧ Edge s v w → w ∈ Finset.range s.created := by
      rintro v w ⟨hv, hvw⟩
      obtain ⟨m, hm⟩ := hv
      exact Finset.mem_range.mpr (h.wellFormed.known v w (h.wellFormed.lt m v hm) hvw)
    have hcycle : ¬ ReachesCycle (fun v w ↦ InGraph s v ∧ Edge s v w) x := by
      rintro ⟨w, -, hw⟩
      obtain ⟨-, ⟨hwg, -⟩, -⟩ := TransGen.head'_iff.mp hw
      exact h.acyclic.acyclic w hwg (TransGen.mono (fun _ _ h ↦ h.2) w w hw)
    refine acyclic_induction (P := fun x ↦ InGraph s x → Acc (fun y x ↦ Edge s x y) x) hin
      (fun v _ ih hv ↦ ⟨v, fun w hvw ↦ ih w ⟨hv, hvw⟩ ?_⟩) x hcycle hx
    exact (hlive w).mpr (h.wellFormed.supsets v w ((hlive v).mp hv) hvw).1
  intro x
  refine h.stale.induction (C := fun x ↦ x < created → Acc (fun y x ↦ Edge s x y) x) x ?_
  intro x ih hx
  by_cases hin : InGraph s x
  · exact hgraph x hin
  · exact ⟨x, fun y hxy ↦ ih y ⟨h.created ▸ hx, hin, hxy⟩ (h.supset_lt hx hxy)⟩

end Ready

/-! ### Merging -/

/-- A merge takes one node out of use: its edges lead to nodes in use. -/
theorem Merged.staleEdge {P : CubicId → Prop} {n1 n2 : CubicId} {s s' : CubicSolver N I}
    (h : Merged n1 n2 s s') (wf : WellFormed name P s) (h₁ : Live name s n1) (h₂ : Live name s n2)
    (hne : n1 ≠ n2) (hstale : WellFounded (StaleEdge s)) : WellFounded (StaleEdge s') := by
  have hin := h.inGraph_iff ⟨name n1, h₁⟩ hne
  have hgraph : ∀ x, InGraph s' x → Acc (StaleEdge s') x := fun x hx ↦
    ⟨x, fun _ hy ↦ absurd hx hy.2.1⟩
  have hself : n2 ∉ (s.nodes n2).subsets := fun hmem ↦
    (wf.supsets n2 n2 h₂ (wf.subsets n2 n2 h₂ hmem).2).2.2 rfl
  have hmerged : Acc (StaleEdge s') n2 := by
    refine ⟨n2, fun y hy ↦ hgraph y ?_⟩
    have hy' := (h.supsets n2 y hne.symm).mp hy.2.2
    have hsup : y ∈ (s.nodes n2).supsets := (hy'.resolve_left fun h ↦ hself h.1).2
    obtain ⟨hylive, -, hyne⟩ := wf.supsets n2 y h₂ hsup
    exact (hin y).mpr ⟨⟨name y, hylive⟩, hyne⟩
  refine ⟨fun x ↦ hstale.induction (C := fun x ↦ Acc (StaleEdge s') x) x fun x ih ↦ ?_⟩
  by_cases hx2 : x = n2
  · exact hx2 ▸ hmerged
  · refine ⟨x, fun y hy ↦ ih y ?_⟩
    obtain ⟨hlt, hout, hxy⟩ := hy
    have hout' : ¬ InGraph s x := fun hx ↦ hout ((hin x).mpr ⟨hx, hx2⟩)
    have hx1 : x ≠ n1 := by
      rintro rfl
      exact hout' ⟨name x, h₁⟩
    have hxsub : x ∉ (s.nodes n2).subsets := fun hmem ↦
      hout' ⟨name x, (wf.subsets n2 x h₂ hmem).1⟩
    rw [h.created] at hlt
    exact ⟨hlt, hout', (((h.supsets x y hx1).mp hxy).resolve_left fun h ↦ hxsub h.1).2⟩

/-- A merge keeps variables mapped. -/
theorem Merged.isSome {n1 n2 : CubicId} {s s' : CubicSolver N I} (h : Merged n1 n2 s s') {m : N}
    (hm : (s.dagmapping m).isSome) : (s'.dagmapping m).isSome := by
  rw [h.dagmapping]
  split_ifs
  · rfl
  · exact hm

theorem Merged.waiting {n1 n2 : CubicId} {M : N → Prop} {s s' : CubicSolver N I}
    (h : Merged n1 n2 s s') (hw : WaitsAbout M s) : WaitsAbout M s' := by
  intro x i p hp
  by_cases hx : x = n1
  · subst hx
    rw [h.conditional_left] at hp
    rcases List.mem_append.mp hp with hp | hp
    · exact hw _ i p hp
    · exact hw _ i p hp
  · rw [h.conditional x hx] at hp
    exact hw x i p hp

/-- A property that every merge of two live nodes keeps. -/
def KeptByMerges (name : CubicId → N) (Q : CubicSolver N I → Prop) : Prop :=
  ∀ P n1 n2 s s', WellFormed name P s → Live name s n1 → Live name s n2 → n1 ≠ n2 →
    Merged n1 n2 s s' → Q s → Q s'

/-- What merges keep, `killCyclesAt` keeps. -/
theorem killCyclesAt_keeps (iter : IterationOrder) {Q : CubicSolver N I → Prop}
    (hQ : KeptByMerges name Q) :
    ∀ (fuel : ℕ) (n : CubicId) (s : CubicSolver N I) (n' : CubicId) (s' : CubicSolver N I),
      WellFormed name (fun _ ↦ False) s → Live name s n →
      killCyclesAt iter fuel n s = some (n', s') → Q s → Q s'
  | 0, _, _, _, _, _, _, h, _ => by cases h
  | fuel + 1, n, s, n', s', wf, hn, h, hs => by
    unfold killCyclesAt at h
    split at h
    · cases h
    · obtain ⟨rfl, rfl⟩ := Prod.mk.inj (Option.some.inj h)
      exact hs
    · next path hne hpath =>
      obtain ⟨t, rest, rfl, -, -, -, -, -, -, hmergeable⟩ :=
        mergeable_of_firstPath iter wf hn hne hpath
      have hm := mergedPath iter rest s _ hmergeable
      exact killCyclesAt_keeps iter hQ fuel t _ n' s' hm.wellFormed hm.survivor h
        (hmergeable.keeps iter (fun P b s s' ↦ hQ P t b s s') rest s _ hs)

theorem keptByMerges_mapped (M : N → Prop) : KeptByMerges (I := I) name (Mapped M) :=
  fun _ _ _ _ _ _ _ _ _ hm hs m hM ↦ hm.isSome (hs m hM)

theorem keptByMerges_waiting (M : N → Prop) : KeptByMerges (I := I) name (WaitsAbout M) :=
  fun _ _ _ _ _ _ _ _ _ hm ↦ hm.waiting

theorem keptByMerges_stale : KeptByMerges (I := I) name fun s ↦ WellFounded (StaleEdge s) :=
  fun _ _ _ _ _ wf h₁ h₂ hne hm ↦ hm.staleEdge wf h₁ h₂ hne

theorem keptByMerges_nodesInUse (k : ℕ) : KeptByMerges (I := I) name fun s ↦ nodesInUse s ≤ k :=
  fun _ n1 n2 _ _ wf h₁ h₂ hne hm hs ↦
    (hm.nodesInUse_lt ⟨name n1, h₁⟩ ⟨name n2, h₂⟩ (wf.lt _ _ h₂) hne).le.trans hs

theorem keptByMerges_load (indices : List I) (l : ℕ ×ₗ ℕ) :
    KeptByMerges (I := I) name fun s ↦ load indices s ≤ l :=
  fun _ n1 n2 _ _ wf h₁ h₂ hne hm hs ↦
    (load_lt_of_nodesInUse
      (hm.nodesInUse_lt ⟨name n1, h₁⟩ ⟨name n2, h₂⟩ (wf.lt _ _ h₂) hne)).le.trans hs

/-! ### What a call leaves behind -/

section Calls

variable {iter : IterationOrder} {created : ℕ} {M : N → Prop} {s s' : CubicSolver N I}

theorem activateWith_of_link_none {fuel : ℕ} {a b : CubicId} {source target : N}
    {propagate : CubicId → CubicSolver N I → Option (CubicSolver N I)}
    (ha : s.dagmapping source = some a) (hb : s.dagmapping target = some b) (hab : a ≠ b)
    (hkill : killCyclesAt iter fuel a (link a b s) = none) :
    activateWith iter fuel propagate source target s = none := by
  rw [link] at hkill
  simp only [activateWith, ha, hb, if_neg hab, hkill]

theorem activateWith_of_link_some {fuel : ℕ} {a b n a' : CubicId} {source target : N}
    {propagate : CubicId → CubicSolver N I → Option (CubicSolver N I)}
    (ha : s.dagmapping source = some a) (hb : s.dagmapping target = some b) (hab : a ≠ b)
    (hkill : killCyclesAt iter fuel a (link a b s) = some (n, s'))
    (ha' : s'.dagmapping source = some a') :
    activateWith iter fuel propagate source target s = propagate a' s' := by
  rw [link] at hkill
  simp only [activateWith, ha, hb, if_neg hab, hkill, ha']

/-- An edge to an unmapped variable is never asked for, and the collapse of the cycles that a new edge
closes leaves a state to propagate in. -/
theorem Ready.activate (indices : List I) (h : Ready name created M s) {source target : N}
    (hsource : M source) (htarget : M target) :
    (∀ fuel propagate, activateWith iter fuel propagate source target s = some s) ∨
    ∃ a b, s.dagmapping source = some a ∧ s.dagmapping target = some b ∧ a ≠ b ∧
      WellFormed name (fun _ ↦ False) (link a b s) ∧ Live name (link a b s) a ∧
      ∀ fuel propagate,
        (killCyclesAt iter fuel a (link a b s) = none ∧
          activateWith iter fuel propagate source target s = none) ∨
        ∃ n s₁ a', killCyclesAt iter fuel a (link a b s) = some (n, s₁) ∧
          s₁.dagmapping source = some a' ∧ a' < created ∧ Ready name created M s₁ ∧
          load indices s₁ ≤ load indices s ∧
          activateWith iter fuel propagate source target s = propagate a' s₁ := by
  obtain ⟨a, ha⟩ := Option.isSome_iff_exists.mp (h.mapped source hsource)
  obtain ⟨b, hb⟩ := Option.isSome_iff_exists.mp (h.mapped target htarget)
  by_cases hab : a = b
  · refine Or.inl fun fuel propagate ↦ ?_
    simp only [activateWith, ha, hb, if_pos hab]
  have hla := h.wellFormed.live _ _ ha
  have hlb := h.wellFormed.live _ _ hb
  have hedge : NewEdge a b s (link a b s) := newEdge_modify s a b
  have wf := hedge.wellFormed h.wellFormed hla hlb hab
  have hlive := (hedge.live_iff a).mpr hla
  refine Or.inr ⟨a, b, ha, hb, hab, wf, hlive, fun fuel propagate ↦ ?_⟩
  rcases hkill : killCyclesAt iter fuel a (link a b s) with _ | ⟨n, s₁⟩
  · exact Or.inl ⟨rfl, activateWith_of_link_none ha hb hab hkill⟩
  · have hset := (killCyclesAt_spec iter fuel a _ n s₁ wf hlive hkill).1
    have hwait : WaitsAbout M (link a b s) := by
      intro x i p hp
      rw [hedge.conditional] at hp
      exact h.waiting x i p hp
    have hmapped : Mapped M (link a b s) := by
      rw [Mapped, hedge.dagmapping]
      exact h.mapped
    have hstale : WellFounded (StaleEdge (link a b s)) := by
      refine Subrelation.wf (fun {y x} hyx ↦ ?_) h.stale
      obtain ⟨hx, hout, hxy⟩ := hyx
      rw [InGraph, hedge.dagmapping] at hout
      refine ⟨hedge.created ▸ hx, hout, ((hedge.supsets x y).mp hxy).resolve_right fun hxa ↦ ?_⟩
      exact hout ⟨source, hxa.1 ▸ ha⟩
    have hready : Ready name created M s₁ :=
      ⟨⟨hset.wellFormed, h.acyclic.newEdge h.wellFormed hla hlb hab hedge hkill,
        hset.grows.created.trans (hedge.created.trans h.created)⟩,
        killCyclesAt_keeps iter (keptByMerges_mapped M) fuel a _ n s₁ wf hlive hkill hmapped,
        killCyclesAt_keeps iter (keptByMerges_waiting M) fuel a _ n s₁ wf hlive hkill hwait,
        killCyclesAt_keeps iter keptByMerges_stale fuel a _ n s₁ wf hlive hkill hstale⟩
    have hload : load indices s₁ ≤ load indices s :=
      killCyclesAt_keeps iter (keptByMerges_load indices _) fuel a _ n s₁ wf hlive hkill
        hedge.load_eq.le
    obtain ⟨a', ha'⟩ := Option.isSome_iff_exists.mp (hready.mapped source hsource)
    refine Or.inr ⟨n, s₁, a', rfl, ha', ?_, hready, hload, ?_⟩
    · rw [← hready.created]
      exact hready.wellFormed.lt _ _ ha'
    · exact activateWith_of_link_some ha hb hab hkill ha'

/-- Calls of `propagate` that return leave a state in which calls can run, and ease the load. -/
def EasesLoad (name : CubicId → N) (indices : List I)
    (propagate : CubicId → CubicSolver N I → Option (CubicSolver N I)) : Prop :=
  ∀ created M x s s', Ready name created M s → x < created → propagate x s = some s' →
    Ready name created M s' ∧ Eases indices s s'

theorem activateWith_ready {indices : List I} {fuel : ℕ} {source target : N}
    {propagate : CubicId → CubicSolver N I → Option (CubicSolver N I)}
    (hpropagate : EasesLoad name indices propagate) (h : Ready name created M s)
    (hsource : M source) (htarget : M target)
    (hact : activateWith iter fuel propagate source target s = some s') :
    Ready name created M s' ∧ load indices s' ≤ load indices s := by
  rcases @Ready.activate _ _ _ iter _ _ _ indices h _ _ hsource htarget with
    hsame | ⟨a, b, -, -, -, -, -, hkill⟩
  · rw [hsame] at hact
    obtain rfl := Option.some.inj hact
    exact ⟨h, le_rfl⟩
  · rcases hkill fuel propagate with ⟨-, hnone⟩ | ⟨n, s₁, a', -, -, ha', hready, hload, hcall⟩
    · rw [hnone] at hact
      cases hact
    · rw [hcall] at hact
      obtain ⟨hready', heases⟩ := hpropagate created M a' s₁ s' hready ha' hact
      exact ⟨hready', heases.le.trans hload⟩

variable {indices : List I}

/-- Activating constraints that had waited at a node. -/
theorem activateAll_ready {fuel : ℕ}
    {propagate : CubicId → CubicSolver N I → Option (CubicSolver N I)}
    (hpropagate : EasesLoad name indices propagate) {ps : List (N × N)} (h : Ready name created M s)
    (hps : ∀ p ∈ ps, M p.1 ∧ M p.2)
    (hact : ps.foldlM (fun s pair ↦ activateWith iter fuel propagate pair.1 pair.2 s) s = some s') :
    Ready name created M s' ∧ load indices s' ≤ load indices s := by
  refine foldlM_keeps (P := fun t ↦ Ready name created M t ∧ load indices t ≤ load indices s) ps s s'
    (fun p hp t t' ht hstep ↦ ?_) ⟨h, le_rfl⟩ hact
  obtain ⟨hready, hload⟩ := activateWith_ready hpropagate ht.1 (hps p hp).1 (hps p hp).2 hstep
  exact ⟨hready, hload.trans ht.2⟩

/-- A round of the first loop. -/
theorem activateIndex_ready [DecidableEq I] {fuel : ℕ} {x : CubicId} {i : I}
    {propagate : CubicId → CubicSolver N I → Option (CubicSolver N I)}
    (hpropagate : EasesLoad name indices propagate) (h : Ready name created M s) (hx : x < created)
    (hi : i ∈ indices) (hact : activateIndex (activateWith iter fuel propagate) x s i = some s') :
    Ready name created M s' ∧ Eases indices s s' := by
  unfold activateIndex at hact
  split_ifs at hact
  · change ((s.nodes x).conditionalConstraints i).foldlM _ (clear x i s) = some s' at hact
    by_cases hnil : (s.nodes x).conditionalConstraints i = []
    · rw [hnil] at hact
      obtain rfl := Option.some.inj hact
      exact ⟨h.clear x i, clear_eases_of_nil hnil⟩
    · obtain ⟨hready, hload⟩ := activateAll_ready hpropagate (h.clear x i)
        (fun p hp ↦ h.waiting x i p hp) hact
      exact ⟨hready, Or.inl (hload.trans_lt (clear_load_lt (h.created ▸ hx) hi hnil))⟩
  · obtain rfl := Option.some.inj hact
    exact ⟨h, Eases.refl s⟩

/-- The first loop, over some of the functions. -/
theorem activateIndices_ready [DecidableEq I] {fuel : ℕ} {x : CubicId} {is : List I}
    {propagate : CubicId → CubicSolver N I → Option (CubicSolver N I)}
    (hpropagate : EasesLoad name indices propagate) (h : Ready name created M s) (hx : x < created)
    (his : ∀ i ∈ is, i ∈ indices)
    (hact : is.foldlM (activateIndex (activateWith iter fuel propagate) x) s = some s') :
    Ready name created M s' ∧ Eases indices s s' := by
  refine foldlM_keeps (P := fun t ↦ Ready name created M t ∧ Eases indices s t) is s s'
    (fun i hi t t' ht hstep ↦ ?_) ⟨h, Eases.refl s⟩ hact
  obtain ⟨hready, heases⟩ := activateIndex_ready hpropagate ht.1 hx (his i hi) hstep
  exact ⟨hready, ht.2.trans heases⟩

/-- The second loop, over nodes that exist. -/
theorem propagateToAll_ready {x : CubicId} {ys : List CubicId}
    {propagate : CubicId → CubicSolver N I → Option (CubicSolver N I)}
    (hpropagate : EasesLoad name indices propagate) (h : Ready name created M s)
    (hys : ∀ y ∈ ys, y < created) (hto : ys.foldlM (propagateTo propagate x) s = some s') :
    Ready name created M s' ∧ Eases indices s s' := by
  refine foldlM_keeps (P := fun t ↦ Ready name created M t ∧ Eases indices s t) ys s s'
    (fun y hy t t' ht hstep ↦ ?_) ⟨h, Eases.refl s⟩ hto
  simp only [propagateTo] at hstep
  split_ifs at hstep
  obtain ⟨hready, heases⟩ := hpropagate created M y _ t' (ht.1.addBits x y) (hys y hy) hstep
  exact ⟨hready, (ht.2.trans (eases_addBits x y t)).trans heases⟩

/-- A call that returns leaves a state in which calls can run, and eases the load. -/
theorem propagateNodeChanges_ready [DecidableEq I] :
    ∀ fuel : ℕ, EasesLoad (I := I) name indices (propagateNodeChanges indices iter fuel)
  | 0 => fun _ _ _ _ _ _ _ h ↦ by cases h
  | fuel + 1 => by
    intro created M x s s' h hx hprop
    have ih : EasesLoad name indices (propagateNodeChanges indices iter fuel) :=
      propagateNodeChanges_ready fuel
    unfold propagateNodeChanges at hprop
    obtain ⟨s₁, h₁, h₂⟩ := Option.bind_eq_some_iff.mp hprop
    obtain ⟨hready₁, heases₁⟩ := activateIndices_ready ih h hx (fun _ hi ↦ hi) h₁
    obtain ⟨hready, heases⟩ := propagateToAll_ready ih hready₁
      (fun y hy ↦ hready₁.supset_lt hx ((iter.mem_list _ _).mp hy)) h₂
    exact ⟨hready, heases₁.trans heases⟩

end Calls

/-! ### Termination -/

section Termination

variable {indices : List I} {iter : IterationOrder} {created : ℕ} {M : N → Prop}
  {s : CubicSolver N I}

theorem firstPath_append {fuel : ℕ} {n : CubicId} :
    ∀ (done ts : List CubicId), firstPath iter fuel n s done = some [] →
      firstPath iter fuel n s (done ++ ts) = firstPath iter fuel n s ts
  | [], _, _ => rfl
  | t :: done, ts, h => by
    unfold firstPath at h
    split at h
    · cases h
    · next hfind =>
      rw [List.cons_append, firstPath, hfind]
      exact firstPath_append done ts h
    · next hne _ => exact absurd (Option.some.inj h) hne

/-- The search for a first path returns, if its calls of `findPath` do. -/
theorem firstPath_returns [DecidableEq I] {n : CubicId}
    (hpaths : PathsReturn indices iter (.killCyclesAt n s)) :
    ∀ (ts done : List CubicId) (k : ℕ), iter.list (s.nodes n).supsets = done ++ ts →
      firstPath iter k n s done = some [] → ∃ fuel path, firstPath iter fuel n s ts = some path
  | [], _, _, _, _ => ⟨0, [], rfl⟩
  | t :: ts, done, k, hlist, hdone => by
    obtain ⟨fuel, out, hout, -⟩ := hpaths t n s (ReflTransGen.single (.findPath hlist hdone))
    cases out with
    | cons x out => exact ⟨fuel, x :: out, by rw [firstPath, hout]⟩
    | nil =>
      have hnil : firstPath iter (k + fuel) n s (done ++ [t]) = some [] := by
        rw [firstPath_append done [t] (firstPath_mono fuel done hdone), firstPath,
          Nat.add_comm, findPath_mono k hout]
        rfl
      obtain ⟨fuel', path, hpath⟩ := firstPath_returns hpaths ts (done ++ [t]) (k + fuel)
        (by rw [hlist, List.append_assoc, List.singleton_append]) hnil
      refine ⟨fuel + fuel', path, ?_⟩
      rw [firstPath, findPath_mono fuel' hout, Nat.add_comm]
      exact firstPath_mono fuel ts hpath

/-- Merging a path of more than one node leaves fewer nodes in use. -/
theorem Mergeable.nodesInUse_lt {a b : CubicId} {rest : List CubicId} {P : CubicId → Prop}
    (h : Mergeable name a (b :: rest) P s) :
    nodesInUse ((b :: rest).foldl (fun s b ↦ mergeNodes iter a b s) s) < nodesInUse s := by
  obtain ⟨hab, hb, hm, hnext⟩ := h.step iter
  refine lt_of_le_of_lt ?_ (hm.nodesInUse_lt ⟨name a, h.survivor⟩ ⟨name b, hb⟩
    (h.wellFormed.lt _ _ hb) hab)
  exact hnext.keeps iter
    (fun P b s s' ↦ @keptByMerges_nodesInUse N I name _ P a b s s') rest _ _ le_rfl

/-- `killCyclesAt` returns: each round merges at least two nodes. -/
theorem killCyclesAt_returns [DecidableEq I] :
    ∀ (k : ℕ) (n : CubicId) (s : CubicSolver N I), nodesInUse s ≤ k →
      WellFormed name (fun _ ↦ False) s → Live name s n →
      PathsReturn indices iter (.killCyclesAt n s) →
      ∃ fuel result, killCyclesAt iter fuel n s = some result
  | k, n, s, hk, wf, hn, hpaths => by
    obtain ⟨fuel, path, hpath⟩ := firstPath_returns hpaths _ [] 0 rfl rfl
    by_cases hne : path = []
    · subst hne
      exact ⟨fuel + 1, (n, s), by rw [killCyclesAt, hpath]⟩
    · obtain ⟨t, rest, rfl, -, hnrest, -, -, -, -, hmergeable⟩ :=
        mergeable_of_firstPath iter wf hn hne hpath
      have hm := mergedPath iter rest s _ hmergeable
      cases rest with
      | nil => cases hnrest
      | cons b rest =>
        have hlt := @Mergeable.nodesInUse_lt _ _ _ iter _ _ _ _ _ hmergeable
        cases k with
        | zero => exact absurd hlt (by omega)
        | succ k =>
          obtain ⟨fuel', result, hresult⟩ := killCyclesAt_returns k t _ (by omega)
            hm.wellFormed hm.survivor (hpaths.of_calls (.collapsed hpath hne rfl))
          refine ⟨fuel + fuel' + 1, result, ?_⟩
          rw [killCyclesAt, firstPath_mono fuel' _ hpath]
          simp only [mergePath]
          rw [Nat.add_comm]
          exact killCyclesAt_mono fuel' fuel _ _ hresult

variable [DecidableEq I]

/-- What is to be shown of a call of `propagateNodeChanges`. -/
def PropagateReturns (indices : List I) (iter : IterationOrder) (x : CubicId)
    (s : CubicSolver N I) : Prop :=
  PathsReturn indices iter (.propagateNodeChanges x s) →
    ∃ fuel s', propagateNodeChanges indices iter fuel x s = some s'

/-- Activating a constraint returns, if propagating does with no more load. -/
theorem activate_returns (h : Ready name created M s) {source target : N} (hsource : M source)
    (htarget : M target)
    (hpropagate : ∀ x t, Ready name created M t → x < created →
      load indices t ≤ load indices s → PropagateReturns indices iter x t)
    (hpaths : PathsReturn indices iter (.activateConditionalConstraint source target s)) :
    ∃ fuel s', activateWith iter fuel (propagateNodeChanges indices iter fuel) source target s =
      some s' := by
  rcases @Ready.activate _ _ _ iter _ _ _ indices h _ _ hsource htarget with
    hsame | ⟨a, b, ha, hb, hab, wf, hlive, hkill⟩
  · exact ⟨0, s, hsame 0 _⟩
  · obtain ⟨k, result, hresult⟩ := killCyclesAt_returns (nodesInUse (link a b s)) a _ le_rfl wf hlive
      (hpaths.of_calls (.killCyclesAt ha hb hab))
    rcases hkill k (propagateNodeChanges indices iter k) with
      ⟨hnone, -⟩ | ⟨n, s₁, a', hkilled, ha', hlt, hready, hload, -⟩
    · rw [hnone] at hresult
      cases hresult
    · obtain ⟨k', s', hs'⟩ := hpropagate a' s₁ hready hlt hload
        (hpaths.of_calls (.propagate ha hb hab hkilled ha'))
      refine ⟨k + k', s', ?_⟩
      have hact : activateWith iter k (fun x t ↦ propagateNodeChanges indices iter k' x t)
          source target s = some s' := by
        rcases hkill k (fun x t ↦ propagateNodeChanges indices iter k' x t) with
          ⟨hnone, -⟩ | ⟨n', t, a'', hkilled', ha'', -, -, -, hcall⟩
        · rw [hnone] at hkilled
          cases hkilled
        · rw [hkilled] at hkilled'
          obtain ⟨rfl, rfl⟩ := Prod.mk.inj (Option.some.inj hkilled')
          obtain rfl := Option.some.inj (ha'.symm.trans ha'')
          rw [hcall]
          exact hs'
      refine activateWith_mono k' (fun x ↦ ?_) source target s s' hact
      rw [Nat.add_comm]
      exact propagateNodeChanges_mono k' k x

/-- A round of the first loop returns, if propagating does with less load. -/
theorem activateIndex_returns {x : CubicId} {before after : List I} {i : I} {k : ℕ}
    {s₁ : CubicSolver N I} (h : Ready name created M s) (hx : x < created)
    (hindices : indices = before ++ i :: after)
    (hbefore : before.foldlM
      (activateIndex (activateWith iter k (propagateNodeChanges indices iter k)) x) s = some s₁)
    (hpropagate : ∀ x t, Ready name created M t → x < created →
      load indices t < load indices s → PropagateReturns indices iter x t)
    (hpaths : PathsReturn indices iter (.propagateNodeChanges x s)) :
    ∃ fuel s₂, activateIndex (activateWith iter fuel (propagateNodeChanges indices iter fuel)) x s₁ i =
      some s₂ := by
  have hmem : ∀ j ∈ before ++ [i], j ∈ indices := by
    rw [hindices]
    intro j hj
    rw [List.mem_append, List.mem_singleton] at hj
    rw [List.mem_append, List.mem_cons]
    exact hj.imp_right Or.inl
  obtain ⟨hready₁, heases₁⟩ := activateIndices_ready (propagateNodeChanges_ready k) h hx
    (fun j hj ↦ hmem j (List.mem_append_left _ hj)) hbefore
  by_cases hbit : (s₁.nodes x).bitvector i = true
  · by_cases hnil : (s₁.nodes x).conditionalConstraints i = []
    · refine ⟨0, clear x i s₁, ?_⟩
      simp only [activateIndex, hbit, if_true, hnil]
      rfl
    · have hlt : load indices (clear x i s₁) < load indices s :=
        (clear_load_lt (hready₁.created ▸ hx) (hmem i (by simp)) hnil).trans_le heases₁.le
      obtain ⟨fuel, s₂, hs₂⟩ := exists_foldlM
        (f := fun k s (pair : N × N) ↦
          activateWith iter k (propagateNodeChanges indices iter k) pair.1 pair.2 s)
        (by
          intro k k' p hk
          obtain ⟨d, rfl⟩ := Nat.exists_eq_add_of_le hk
          exact activateWith_mono d (propagateNodeChanges_mono k d) p.1 p.2)
        ((s₁.nodes x).conditionalConstraints i) (clear x i s₁) (by
          intro done p rest k' s₂ hsplit hdone
          have hM : ∀ q ∈ done ++ p :: rest, M q.1 ∧ M q.2 := fun q hq ↦
            hready₁.waiting x i q (hsplit ▸ hq)
          obtain ⟨hready₂, hload₂⟩ := activateAll_ready (propagateNodeChanges_ready k')
            (hready₁.clear x i) (fun q hq ↦ hM q (List.mem_append_left _ hq)) hdone
          obtain ⟨hsource, htarget⟩ := hM p (by simp)
          refine activate_returns hready₂ hsource htarget (fun y t ht hy hle ↦
            hpropagate y t ht hy ((hle.trans hload₂).trans_lt hlt)) (hpaths.of_calls ?_)
          have hbefore' := foldlM_mono (fun j ↦ activateIndex_mono
            (activateWith_mono k' (propagateNodeChanges_mono k k')) x j) before s s₁ hbefore
          have hdone' := foldlM_mono (fun q : N × N ↦
            activateWith_mono k (propagateNodeChanges_mono k' k) q.1 q.2) done _ s₂ hdone
          rw [Nat.add_comm] at hdone'
          exact .activate hindices hbefore' hbit hsplit hdone')
      refine ⟨fuel, s₂, ?_⟩
      simp only [activateIndex, hbit, if_true]
      exact hs₂
  · exact ⟨0, s₁, by simp only [activateIndex, hbit, Bool.false_eq_true, if_false]⟩

/-- A round of the second loop returns, if propagating does with less load, and with the same load and
the same edges for the supersets of the node. -/
theorem propagateTo_returns {x y : CubicId} {done rest : List CubicId} {k : ℕ}
    {s₁ s₂ : CubicSolver N I} (h : Ready name created M s) (hx : x < created)
    (hfirst : indices.foldlM
      (activateIndex (activateWith iter k (propagateNodeChanges indices iter k)) x) s = some s₁)
    (hlist : iter.list (s₁.nodes x).supsets = done ++ y :: rest)
    (hdone : done.foldlM (propagateTo (propagateNodeChanges indices iter k) x) s₁ = some s₂)
    (hless : ∀ x t, Ready name created M t → x < created →
      load indices t < load indices s → PropagateReturns indices iter x t)
    (hsame : ∀ y ∈ (s.nodes x).supsets, ∀ t, Ready name created M t →
      load indices t = load indices s → (∀ x, (t.nodes x).supsets = (s.nodes x).supsets) →
      PropagateReturns indices iter y t)
    (hpaths : PathsReturn indices iter (.propagateNodeChanges x s)) :
    ∃ fuel s', propagateTo (propagateNodeChanges indices iter fuel) x s₂ y = some s' := by
  obtain ⟨hready₁, heases₁⟩ := activateIndices_ready (propagateNodeChanges_ready k) h hx
    (fun _ hi ↦ hi) hfirst
  have hlt : ∀ z ∈ done ++ y :: rest, z < created := fun z hz ↦
    hready₁.supset_lt hx ((iter.mem_list _ z).mp (hlist ▸ hz))
  have hy : y ∈ (s₁.nodes x).supsets := (iter.mem_list _ y).mp (by rw [hlist]; simp)
  have hyx : y ≠ x := by
    rintro rfl
    exact hready₁.acyclic.irreflexive y hy
  obtain ⟨hready₂, heases₂⟩ := propagateToAll_ready (propagateNodeChanges_ready k) hready₁
    (fun z hz ↦ hlt z (List.mem_append_left _ hz)) hdone
  have hready := hready₂.addBits x y
  have heases := (heases₁.trans heases₂).trans (eases_addBits x y s₂)
  have hpaths' : PathsReturn indices iter (.propagateNodeChanges y (addBits x y s₂)) :=
    hpaths.of_calls (.superset hfirst hlist hdone hyx)
  have hreturns : PropagateReturns indices iter y (addBits x y s₂) := by
    rcases heases with hless' | ⟨hload, hedges⟩
    · exact hless y _ hready (hlt y (by simp)) hless'
    · -- no load was lost on the way, so that `y` was a superset all along
      have hedges₁ : (s₁.nodes x).supsets = (s.nodes x).supsets := by
        rcases heases₁ with hlt₁ | heq₁
        · have hle := (heases₂.trans (eases_addBits x y s₂)).le
          rw [hload] at hle
          exact absurd hlt₁ (not_lt.mpr hle)
        · exact heq₁.2 x
      exact hsame y (hedges₁ ▸ hy) _ hready hload hedges
  obtain ⟨fuel, s', hs'⟩ := hreturns hpaths'
  refine ⟨fuel, s', ?_⟩
  simp only [propagateTo, if_neg hyx]
  exact hs'

/-- `propagateNodeChanges` returns: the induction is on the load, and where the load stays on the walk
along edges. -/
theorem propagateNodeChanges_returns {x : CubicId} (h : Ready name created M s) (hx : x < created) :
    PropagateReturns indices iter x s := by
  obtain ⟨l, hl⟩ : ∃ l, load indices s = l := ⟨_, rfl⟩
  induction l using WellFoundedLT.induction generalizing x s with
  | ind l hless =>
    suffices hwalk : ∀ y, Acc (fun y x ↦ Edge s x y) y → ∀ t, Ready name created M t →
        y < created → load indices t = l → (∀ x, (t.nodes x).supsets = (s.nodes x).supsets) →
        PropagateReturns indices iter y t from
      hwalk x (h.acc x hx) s h hx hl fun _ ↦ rfl
    intro y hy
    induction hy with
    | intro y _ ih =>
      intro t ht hlt hload hedges hpaths
      have hless' : ∀ x t', Ready name created M t' → x < created →
          load indices t' < load indices t → PropagateReturns indices iter x t' :=
        fun x t' ht' hx' hlt' ↦ hless _ (hload ▸ hlt') ht' hx' rfl
      have hmono : ∀ k d, ∀ z, Returns (propagateNodeChanges (N := N) indices iter k z)
          (propagateNodeChanges indices iter (k + d) z) := fun k d z ↦
        propagateNodeChanges_mono k d z
      obtain ⟨k₁, s₁, hs₁⟩ := exists_foldlM
        (f := fun k s i ↦
          activateIndex (activateWith iter k (propagateNodeChanges indices iter k)) y s i)
        (by
          intro k k' i hk
          obtain ⟨d, rfl⟩ := Nat.exists_eq_add_of_le hk
          exact activateIndex_mono (activateWith_mono d (hmono k d)) y i)
        indices t (fun before i after k s₁ hsplit hbefore ↦
          activateIndex_returns ht hlt hsplit hbefore hless' hpaths)
      obtain ⟨k₂, s₂, hs₂⟩ := exists_foldlM
        (f := fun k s z ↦ propagateTo (propagateNodeChanges indices iter k) y s z)
        (by
          intro k k' z hk
          obtain ⟨d, rfl⟩ := Nat.exists_eq_add_of_le hk
          exact propagateTo_mono (hmono k d) y z)
        (iter.list (s₁.nodes y).supsets) s₁ (by
          intro done z rest k s₂ hsplit hdone
          have hfirst := foldlM_mono (fun i ↦ activateIndex_mono
            (activateWith_mono k (hmono k₁ k)) y i) indices t s₁ hs₁
          have hdone' := foldlM_mono (fun w ↦ propagateTo_mono (hmono k k₁) y w) done s₁ s₂ hdone
          rw [Nat.add_comm] at hdone'
          refine propagateTo_returns ht hlt hfirst hsplit hdone' hless' ?_ hpaths
          intro w hw t' ht' hload' hedges'
          refine ih w (show w ∈ (s.nodes y).supsets from hedges y ▸ hw) t' ht' (ht.supset_lt hlt hw) (hload'.trans hload) ?_
          exact fun x ↦ (hedges' x).trans (hedges x))
      refine ⟨k₁ + k₂ + 1, s₂, Option.bind_eq_some_iff.mpr ⟨s₁, ?_, ?_⟩⟩
      · exact foldlM_mono (fun i ↦ activateIndex_mono (activateWith_mono k₂ (hmono k₁ k₂)) y i)
          indices t s₁ hs₁
      · rw [Nat.add_comm k₁]
        exact foldlM_mono (fun z ↦ propagateTo_mono (hmono k₂ k₁) y z) _ s₁ s₂ hs₂

end Termination

/-! ### Between calls -/

/-- What holds between calls, beside what the solver has computed. -/
structure Quiet (s : CubicSolver N I) : Prop where
  acyclic : Acyclic s
  waiting : WaitsAbout (fun m ↦ (s.dagmapping m).isSome) s
  stale : WellFounded (StaleEdge s)

theorem quiet_new : Quiet (new N I) := by
  constructor
  · refine ⟨fun x h ↦ Finset.notMem_empty x h, fun x hx ↦ ?_⟩
    obtain ⟨n, hn⟩ := hx
    cases hn
  · intro x i p hp
    cases hp
  · exact ⟨fun x ↦ ⟨x, fun y hy ↦ absurd hy.1 (Nat.not_lt_zero x)⟩⟩

theorem Ready.quiet {created : ℕ} {M : N → Prop} {s : CubicSolver N I}
    (h : Ready name created M s) : Quiet s :=
  ⟨h.acyclic, fun x i p hp ↦
    ⟨h.mapped _ (h.waiting x i p hp).1, h.mapped _ (h.waiting x i p hp).2⟩, h.stale⟩

theorem Quiet.ready {s : CubicSolver N I} (h : Quiet s)
    (wf : WellFormed name (fun _ ↦ False) s) :
    Ready name s.created (fun m ↦ (s.dagmapping m).isSome) s :=
  ⟨⟨wf, h.acyclic, rfl⟩, fun _ hm ↦ hm, h.waiting, h.stale⟩

section Between

variable [DecidableEq N] {s : CubicSolver N I} {constraints : List (SetConstraint N I)}

theorem Quiet.addEmptyVariableIfNecessary (h : Quiet s) (m : N) :
    Quiet (s.addEmptyVariableIfNecessary m) := by
  have hmapped := fun n (hn : (s.dagmapping n).isSome) ↦
    isSome_addEmptyVariableIfNecessary s m n (Or.inr hn)
  refine ⟨h.acyclic.addEmptyVariableIfNecessary m, ?_, ?_⟩
  · intro x i p hp
    have hold : p ∈ (s.nodes x).conditionalConstraints i := by
      unfold CubicSolver.addEmptyVariableIfNecessary at hp
      split at hp
      · exact hp
      · simp only [Function.update_apply] at hp
        split_ifs at hp
        · cases hp
        · exact hp
    exact ⟨hmapped _ (h.waiting x i p hold).1, hmapped _ (h.waiting x i p hold).2⟩
  · refine Subrelation.wf (fun {y x} hyx ↦ ?_) h.stale
    obtain ⟨hx, hout, hxy⟩ := hyx
    unfold CubicSolver.addEmptyVariableIfNecessary at hx hout hxy
    split at hx
    · next z hz =>
      rw [hz] at hout hxy
      exact ⟨hx, hout, hxy⟩
    · next hnone =>
      rw [hnone] at hout hxy
      simp only [InGraph, Edge, Function.update_apply] at hx hout hxy
      split_ifs at hxy with hxc
      · exact absurd hxy (Finset.notMem_empty y)
      · refine ⟨lt_of_le_of_ne (Nat.lt_succ_iff.mp hx) hxc, fun ⟨n, hn⟩ ↦ hout ⟨n, ?_⟩, hxy⟩
        have hnm : n ≠ m := by
          rintro rfl
          rw [hnone] at hn
          cases hn
        rw [if_neg hnm, hn]

/-- What holds between calls holds with one more variable mapped. -/
theorem exists_quiet_addEmptyVariable (hs : Solves constraints name s) (hq : Quiet s) (m : N) :
    ∃ name', Solves constraints name' (s.addEmptyVariableIfNecessary m) ∧
      Quiet (s.addEmptyVariableIfNecessary m) := by
  obtain ⟨name', hs'⟩ := hs.addEmptyVariableIfNecessary m
  exact ⟨name', hs', hq.addEmptyVariableIfNecessary m⟩

variable [DecidableEq I]

/-- The call that adding a constraint comes down to starts in a state in which calls can run. -/
theorem exists_ready_entry (indices : List I) (iter : IterationOrder)
    (hs : Solves constraints name s) (hq : Quiet s) (c : SetConstraint N I) :
    ∃ (name' : CubicId → N) (s₁ : CubicSolver N I),
      Ready name' s₁.created (fun m ↦ (s₁.dagmapping m).isSome) s₁ ∧
      ((∃ a b, entry s c = some (.activateConditionalConstraint a b s₁) ∧
        (s₁.dagmapping a).isSome ∧ (s₁.dagmapping b).isSome ∧
        ∀ fuel, addConstraint indices iter fuel s c =
          activateWith iter fuel (propagateNodeChanges indices iter fuel) a b s₁) ∨
      ∃ x, x < s₁.created ∧ entry s c = some (.propagateNodeChanges x s₁) ∧
        ∀ fuel, addConstraint indices iter fuel s c =
          propagateNodeChanges indices iter fuel x s₁) := by
  cases c with
  | elementof f n =>
    obtain ⟨name₁, hs₁, hq₁⟩ := exists_quiet_addEmptyVariable hs hq n
    obtain ⟨x, hx⟩ := Option.isSome_iff_exists.mp
      (isSome_addEmptyVariableIfNecessary s n n (Or.inl rfl))
    set s₁ := s.addEmptyVariableIfNecessary n with hs₁'
    set s₂ := s₁.modify x fun x ↦ { x with
      bitvector := Function.update x.bitvector f true } with hs₂
    have hchange : ChangedAt x s₁ s₂ := changedAt_modify (fun _ ↦ rfl) (fun _ ↦ rfl)
      fun n i hi ↦ by by_cases hif : i = f <;> simp [hif, hi]
    have hready : Ready name₁ s₂.created (fun m ↦ (s₂.dagmapping m).isSome) s₂ :=
      (hq₁.ready hs₁.wellFormed).changedAt hchange fun i p hp ↦ hq₁.waiting x i p (by
        rw [hs₂, modify_nodes, if_pos rfl] at hp
        exact hp)
    refine ⟨name₁, s₂, hready, Or.inr ⟨x, hs₁.wellFormed.lt _ _ hx, ?_, fun fuel ↦ ?_⟩⟩
    · simp only [entry, ← hs₁', hx, Option.map_some, ← hs₂]
    · simp only [addConstraint, addElementofConstraint, ← hs₁', hx, ← hs₂]
  | subseteq a b =>
    obtain ⟨name₁, hs₁, hq₁⟩ := exists_quiet_addEmptyVariable hs hq a
    obtain ⟨name₂, hs₂, hq₂⟩ := exists_quiet_addEmptyVariable hs₁ hq₁ b
    refine ⟨name₂, _, hq₂.ready hs₂.wellFormed, Or.inl ⟨a, b, rfl, ?_, ?_, fun _ ↦ rfl⟩⟩
    · exact isSome_addEmptyVariableIfNecessary _ b a
        (Or.inr (isSome_addEmptyVariableIfNecessary s a a (Or.inl rfl)))
    · exact isSome_addEmptyVariableIfNecessary _ b b (Or.inl rfl)
  | conditional f n a b =>
    obtain ⟨name₁, hs₁, hq₁⟩ := exists_quiet_addEmptyVariable hs hq n
    obtain ⟨name₂, hs₂, hq₂⟩ := exists_quiet_addEmptyVariable hs₁ hq₁ a
    obtain ⟨name₃, hs₃, hq₃⟩ := exists_quiet_addEmptyVariable hs₂ hq₂ b
    have hn := isSome_addEmptyVariableIfNecessary s n n (Or.inl rfl)
    have ha := isSome_addEmptyVariableIfNecessary (s.addEmptyVariableIfNecessary n) a a (Or.inl rfl)
    obtain ⟨x, hx⟩ := Option.isSome_iff_exists.mp (isSome_addEmptyVariableIfNecessary _ b n
      (Or.inr (isSome_addEmptyVariableIfNecessary _ a n (Or.inr hn))))
    have ha' := isSome_addEmptyVariableIfNecessary _ b a (Or.inr ha)
    have hb' := isSome_addEmptyVariableIfNecessary ((s.addEmptyVariableIfNecessary
      n).addEmptyVariableIfNecessary a) b b (Or.inl rfl)
    set s₁ := ((s.addEmptyVariableIfNecessary n).addEmptyVariableIfNecessary
      a).addEmptyVariableIfNecessary b with hs₁'
    set s₂ := s₁.modify x fun x ↦ { x with
      conditionalConstraints := Function.update x.conditionalConstraints f
        (x.conditionalConstraints f ++ [(a, b)]) } with hs₂'
    have hchange : ChangedAt x s₁ s₂ := changedAt_modify (fun _ ↦ rfl) (fun _ ↦ rfl)
      fun _ _ hi ↦ hi
    have hready : Ready name₃ s₂.created (fun m ↦ (s₂.dagmapping m).isSome) s₂ := by
      refine (hq₃.ready hs₃.wellFormed).changedAt hchange fun i p hp ↦ ?_
      rw [hs₂', modify_nodes, if_pos rfl] at hp
      simp only [Function.update_apply] at hp
      split_ifs at hp
      · rcases List.mem_append.mp hp with hp | hp
        · exact hq₃.waiting x f p hp
        · rw [List.mem_singleton.mp hp]
          exact ⟨ha', hb'⟩
      · exact hq₃.waiting x i p hp
    refine ⟨name₃, s₂, hready, Or.inr ⟨x, hs₃.wellFormed.lt _ _ hx, ?_, fun fuel ↦ ?_⟩⟩
    · simp only [entry, ← hs₁', hx, Option.map_some, ← hs₂']
    · simp only [addConstraint, addConditionalConstraint, ← hs₁', hx, ← hs₂']

/-- A call that returns leaves what holds between calls. -/
theorem Quiet.addConstraint {indices : List I} {iter : IterationOrder} {fuel : ℕ}
    {s' : CubicSolver N I} {c : SetConstraint N I} (hs : Solves constraints name s) (hq : Quiet s)
    (h : addConstraint indices iter fuel s c = some s') : Quiet s' := by
  obtain ⟨name', s₁, hready, ⟨a, b, -, ha, hb, hcall⟩ | ⟨x, hx, -, hcall⟩⟩ :=
    exists_ready_entry indices iter hs hq c
  · rw [hcall] at h
    exact (activateWith_ready (@propagateNodeChanges_ready _ _ _ _ indices _ fuel) hready ha hb
      h).1.quiet
  · rw [hcall] at h
    exact (propagateNodeChanges_ready fuel _ _ x s₁ s' hready hx h).1.quiet

theorem quiet_foldlM {indices : List I} {iter : IterationOrder} {fuel : ℕ}
    (hindices : ∀ i, i ∈ indices) :
    ∀ (cs done : List (SetConstraint N I)) (name : CubicId → N) (s s' : CubicSolver N I),
      Solves done name s → Quiet s → cs.foldlM (CubicSolver.addConstraint indices iter fuel) s = some s' →
      ∃ name', Solves (done ++ cs) name' s' ∧ Quiet s'
  | [], done, name, s, s', hs, hq, h => by
    obtain rfl := Option.some.inj h
    exact ⟨name, by rw [List.append_nil]; exact hs, hq⟩
  | c :: cs, done, name, s, s', hs, hq, h => by
    rw [List.foldlM_cons] at h
    obtain ⟨s₁, h₁, h₂⟩ := Option.bind_eq_some_iff.mp h
    obtain ⟨name₁, hs₁⟩ := hs.addConstraint hindices h₁
    have happend : done ++ c :: cs = (done ++ [c]) ++ cs := by simp
    rw [happend]
    exact quiet_foldlM hindices cs (done ++ [c]) name₁ s₁ s' hs₁ (hq.addConstraint hs h₁) h₂

end Between

/-- For every list of functions, in every state that calls have left, the next call returns, if every
call of `findPath` made along the way returns a path back from its target or the empty vector. -/
theorem addConstraint_terminates {N F : Type} [DecidableEq N] [DecidableEq F] (functions : List F)
    (iter : IterationOrder) {fuel : ℕ} {constraints : List (SetConstraint N {f // f ∈ functions})}
    {s : CubicSolver N {f // f ∈ functions}}
    (hs : solveConstraints functions.attach iter fuel constraints = some s)
    (c : SetConstraint N {f // f ∈ functions})
    (hpaths : ∀ frame, entry s c = some frame → PathsReturn functions.attach iter frame) :
    ∃ fuel s', addConstraint functions.attach iter fuel s c = some s' := by
  have hvariable : ∃ n : N, n ∈ c.operands := by
    cases c with
    | elementof f n => exact ⟨n, List.mem_cons_self⟩
    | subseteq a b => exact ⟨a, List.mem_cons_self⟩
    | conditional f n a b => exact ⟨n, List.mem_cons_self⟩
  obtain ⟨n, -⟩ := hvariable
  obtain ⟨name, hsolves, hq⟩ := quiet_foldlM (List.mem_attach functions) constraints []
    (fun _ ↦ n) _ s (solves_new _) quiet_new hs
  obtain ⟨name', s₁, hready, ⟨a, b, hentry, ha, hb, hcall⟩ | ⟨x, hx, hentry, hcall⟩⟩ :=
    exists_ready_entry functions.attach iter hsolves hq c
  · obtain ⟨fuel, s', hs'⟩ := activate_returns hready ha hb
      (fun x t ht hx _ ↦ propagateNodeChanges_returns ht hx) (hpaths _ hentry)
    exact ⟨fuel, s', by rw [hcall, hs']⟩
  · obtain ⟨fuel, s', hs'⟩ := propagateNodeChanges_returns hready hx (hpaths _ hentry)
    exact ⟨fuel, s', by rw [hcall, hs']⟩

/-- At a node that holds no function the first loop does nothing. -/
theorem foldlM_activateIndex_of_empty [DecidableEq I]
    {activate : N → N → CubicSolver N I → Option (CubicSolver N I)} {node : CubicId}
    {s s' : CubicSolver N I} (hbits : ∀ i, (s.nodes node).bitvector i = false) :
    ∀ is : List I, is.foldlM (activateIndex activate node) s = some s' → s' = s
  | [], h => (Option.some.inj h).symm
  | i :: is, h => by
    rw [List.foldlM_cons] at h
    obtain ⟨s₁, h₁, h₂⟩ := Option.bind_eq_some_iff.mp h
    rw [activateIndex, hbits i] at h₁
    obtain rfl := Option.some.inj h₁
    exact foldlM_activateIndex_of_empty hbits is h₂

/-- The call that adds one inclusion to a new solver looks for a path back, which there is not. -/
theorem addConstraint_terminates_subseteq :
    ∃ fuel s', addConstraint [7].attach .creation fuel (new ℕ {f : ℕ // f ∈ [7]}) (.subseteq 0 1) =
      some s' := by
  refine addConstraint_terminates [7] .creation
    (rfl : solveConstraints [7].attach .creation 0 [] = some (new ℕ {f : ℕ // f ∈ [7]})) _ ?_
  intro frame hframe source target s hpath
  -- the two nodes with the new edge, and the same after propagating along it
  set s₁ := link 0 1
    (((new ℕ {f : ℕ // f ∈ [7]}).addEmptyVariableIfNecessary 0).addEmptyVariableIfNecessary 1)
  set s₂ := addBits 0 1 s₁
  have hbits₁ : ∀ f, (s₁.nodes 0).bitvector f = false := by decide
  have hbits₂ : ∀ f, (s₂.nodes 1).bitvector f = false := by decide
  have hlist₁ : IterationOrder.creation.list (s₁.nodes 0).supsets = [1] := by decide
  have hlist₂ : IterationOrder.creation.list (s₂.nodes 1).supsets = [] := by decide
  have hfirst : firstPath .creation 3 0 s₁ (IterationOrder.creation.list (s₁.nodes 0).supsets) =
    some [] := by decide
  have hkilled : killCyclesAt .creation 4 0 s₁ = some (0, s₁) := by
    rw [killCyclesAt, hfirst]
  have hclosed : ∀ g, ReflTransGen (Calls [7].attach .creation) frame g →
      frame = g ∨ g = .killCyclesAt 0 s₁ ∨ g = .findPath 1 0 s₁ ∨
      g = .propagateNodeChanges 0 s₁ ∨ g = .propagateNodeChanges 1 s₂ := by
    intro g hg
    induction hg with
    | refl => exact Or.inl rfl
    | tail _ hcall ih =>
      rcases ih with rfl | rfl | rfl | rfl | rfl
      · obtain rfl := Option.some.inj hframe
        cases hcall with
        | killCyclesAt ha hb _ =>
          obtain rfl := Option.some.inj ha
          obtain rfl := Option.some.inj hb
          exact Or.inr (Or.inl rfl)
        | @propagate _ _ a b n a' fuel _ s' ha hb _ hkill ha' =>
          obtain rfl := Option.some.inj ha
          obtain rfl := Option.some.inj hb
          have hmore := killCyclesAt_mono 4 fuel 0 s₁ hkilled
          rw [Nat.add_comm, killCyclesAt_mono fuel 4 0 s₁ hkill] at hmore
          obtain ⟨-, rfl⟩ := Prod.mk.inj (Option.some.inj hmore)
          obtain rfl := Option.some.inj ha'
          exact Or.inr (Or.inr (Or.inr (Or.inl rfl)))
      · cases hcall with
        | @findPath _ t before after fuel _ hlist _ =>
          rw [hlist₁] at hlist
          cases before with
          | nil =>
            obtain ⟨rfl, -⟩ := List.cons.inj hlist
            exact Or.inr (Or.inr (Or.inl rfl))
          | cons b before => cases before <;> cases (List.cons.inj hlist).2
        | @collapsed _ n' path fuel _ s' hpath hne _ =>
          have hmore := firstPath_mono fuel _ hfirst
          rw [Nat.add_comm, firstPath_mono 3 _ hpath] at hmore
          exact absurd (Option.some.inj hmore) hne
      · cases hcall
      · cases hcall with
        | @activate _ is after i done rest p fuel _ t t' hindices hbefore hbit hsplit hdone =>
          rw [foldlM_activateIndex_of_empty hbits₁ is hbefore, hbits₁ i] at hbit
          cases hbit
        | @superset _ sups done rest fuel _ t t' hindices hlist hdone hne =>
          obtain rfl := foldlM_activateIndex_of_empty hbits₁ _ hindices
          rw [hlist₁] at hlist
          cases done with
          | nil =>
            obtain ⟨rfl, -⟩ := List.cons.inj hlist
            obtain rfl := Option.some.inj hdone
            exact Or.inr (Or.inr (Or.inr (Or.inr rfl)))
          | cons b done => cases done <;> cases (List.cons.inj hlist).2
      · cases hcall with
        | @activate _ is after i done rest p fuel _ t t' hindices hbefore hbit hsplit hdone =>
          rw [foldlM_activateIndex_of_empty hbits₂ is hbefore, hbits₂ i] at hbit
          cases hbit
        | @superset _ sups done rest fuel _ t t' hindices hlist hdone hne =>
          obtain rfl := foldlM_activateIndex_of_empty hbits₂ _ hindices
          rw [hlist₂] at hlist
          cases done <;> cases hlist
  rcases hclosed _ hpath with h | h | h | h | h
  · rw [h] at hframe
    cases hframe
  · cases h
  · obtain ⟨hsource, htarget, hs⟩ := Frame.findPath.inj h
    rw [hsource, htarget, hs]
    exact ⟨3, [], by decide, Or.inl rfl⟩
  · cases h
  · cases h

end Sipc.CubicSolver
