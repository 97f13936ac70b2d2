import Mathlib.Data.List.Forall2
import Mathlib.Logic.Relation
import Sipc.Library.RegularTree
import Sipc.Library.UnionForest

/-!
# Unification over term graphs

The theory a union-find unification algorithm rests on, for any terms seen through a `TermView`:
which constructor heads a term, if any, and its arguments.

`LeastDecomposing E` is the least equivalence that contains `E` and relates the arguments of related
terms with one constructor and arity. A forest over terms is `ClosedUpTo` a list of pending pairs when
related proper terms have one constructor, and arguments related once the pending pairs are joined
too; this is the invariant that survives joining two classes before their arguments
(`ClosedUpTo.link_args`). With nothing pending the classes of the forest are closed under
decomposition (`ClosedUpTo.rep_eq`), and following representatives from a term gives a possibly
infinite tree that solves every equation between terms of one class (`interprets_solution`,
`solution_eq`).
-/

set_option autoImplicit false
set_option relaxedAutoImplicit false

namespace Sipc.Library

/-- What unification sees of a term: its constructor, absent on variables, and its arguments. -/
structure TermView (T H : Type) where
  head : T → Option H
  args : T → List T

namespace TermView

variable {T H L : Type} (V : TermView T H)

/-- A term headed by a constructor. -/
def Proper (t : T) : Prop :=
  ∃ h, V.head t = some h

/-- Two terms with the same constructor and the same number of arguments. -/
def Match (s t : T) : Prop :=
  V.head s = V.head t ∧ (V.args s).length = (V.args t).length

/-- Two proper terms that do not match. -/
def Clash (s t : T) : Prop :=
  V.Proper s ∧ V.Proper t ∧ ¬ V.Match s t

/-- A relation that passes from matching proper terms to their arguments. -/
def Decomposes (R : T → T → Prop) : Prop :=
  ∀ s t, R s t → V.Proper s → V.Match s t → ∀ a b, (a, b) ∈ (V.args s).zip (V.args t) → R a b

/-- The least equivalence that contains `E` and is closed under decomposing two terms with the same
constructor and arity into their arguments. -/
inductive LeastDecomposing (E : T → T → Prop) : T → T → Prop
  | base {s t : T} : E s t → LeastDecomposing E s t
  | refl (t : T) : LeastDecomposing E t t
  | symm {s t : T} : LeastDecomposing E s t → LeastDecomposing E t s
  | trans {r s t : T} :
      LeastDecomposing E r s → LeastDecomposing E s t → LeastDecomposing E r t
  | arg {s t a b : T} : LeastDecomposing E s t → V.Proper s → V.Match s t →
      (a, b) ∈ (V.args s).zip (V.args t) → LeastDecomposing E a b

variable {V}

theorem Match.symm {s t : T} (h : V.Match s t) : V.Match t s :=
  ⟨h.1.symm, h.2.symm⟩

theorem Match.trans {r s t : T} (h : V.Match r s) (h' : V.Match s t) : V.Match r t :=
  ⟨h.1.trans h'.1, h.2.trans h'.2⟩

theorem Match.proper {s t : T} (h : V.Match s t) (hs : V.Proper s) : V.Proper t := by
  obtain ⟨c, hc⟩ := hs
  exact ⟨c, h.1 ▸ hc⟩

theorem LeastDecomposing.equivalence (E : T → T → Prop) : Equivalence (V.LeastDecomposing E) :=
  ⟨LeastDecomposing.refl, LeastDecomposing.symm, LeastDecomposing.trans⟩

theorem LeastDecomposing.decomposes (E : T → T → Prop) : V.Decomposes (V.LeastDecomposing E) :=
  fun _ _ h hs hmatch _ _ hab ↦ LeastDecomposing.arg h hs hmatch hab

/-- `LeastDecomposing E` is below every decomposing equivalence that contains `E`. -/
theorem LeastDecomposing.le {E R : T → T → Prop} (hR : Equivalence R) (hdec : V.Decomposes R)
    (hE : ∀ s t, E s t → R s t) {s t : T} (h : V.LeastDecomposing E s t) : R s t := by
  induction h with
  | base h => exact hE _ _ h
  | refl t => exact hR.refl t
  | symm _ ih => exact hR.symm ih
  | trans _ _ ih ih' => exact hR.trans ih ih'
  | arg _ hs hmatch hab ih => exact hdec _ _ ih hs hmatch _ _ hab

theorem LeastDecomposing.mono {E E' : T → T → Prop} (h : ∀ s t, E s t → E' s t) {s t : T}
    (hst : V.LeastDecomposing E s t) : V.LeastDecomposing E' s t :=
  hst.le (LeastDecomposing.equivalence E') (LeastDecomposing.decomposes E')
    fun s t hE ↦ LeastDecomposing.base (h s t hE)

/-- Terms outside a set that holds the equations and is closed under arguments are related to
themselves only. -/
theorem LeastDecomposing.eq_or_mem {E : T → T → Prop} {S : T → Prop}
    (hS : ∀ s t, E s t → S s ∧ S t) (hargs : ∀ t, S t → ∀ a ∈ V.args t, S a) {s t : T}
    (h : V.LeastDecomposing E s t) : s = t ∨ S s ∧ S t := by
  induction h with
  | base h => exact Or.inr (hS _ _ h)
  | refl t => exact Or.inl rfl
  | symm _ ih => exact ih.imp Eq.symm And.symm
  | trans _ _ ih ih' =>
    rcases ih with rfl | hleft
    · exact ih'
    · rcases ih' with rfl | hright
      · exact Or.inr hleft
      · exact Or.inr ⟨hleft.1, hright.2⟩
  | @arg s t a b _ _ _ hab ih =>
    rcases ih with rfl | ⟨hs, ht⟩
    · obtain ⟨i, hi⟩ := List.mem_iff_getElem?.mp hab
      obtain ⟨ha, hb⟩ := List.getElem?_zip_eq_some.mp hi
      exact Or.inl (Option.some.inj (ha.symm.trans hb))
    · exact Or.inr ⟨hargs _ hs _ (List.of_mem_zip hab).1, hargs _ ht _ (List.of_mem_zip hab).2⟩

/-! ### Closed forests -/

section Closed

variable (V)

/-- Related by equal representatives, once the pairs of `pending` are joined as well. -/
def Joined (rep : T → T) (pending : List (T × T)) : T → T → Prop :=
  Relation.EqvGen fun a b ↦ rep a = rep b ∨ (a, b) ∈ pending

/-- Proper terms with one representative match, and their arguments are joined up to `pending`. -/
def ClosedUpTo (rep : T → T) (pending : List (T × T)) : Prop :=
  ∀ s t, V.Proper s → V.Proper t → rep s = rep t →
    V.Match s t ∧ ∀ a b, (a, b) ∈ (V.args s).zip (V.args t) → Joined rep pending a b

/-- The representative of a class is proper as soon as the class holds a proper term. -/
def ProperRep (rep : T → T) : Prop :=
  ∀ t, V.Proper t → V.Proper (rep t)

variable {V}

theorem Joined.of_rep_eq {rep : T → T} {pending : List (T × T)} {a b : T} (h : rep a = rep b) :
    Joined rep pending a b :=
  Relation.EqvGen.rel _ _ (Or.inl h)

theorem Joined.of_mem {rep : T → T} {pending : List (T × T)} {a b : T} (h : (a, b) ∈ pending) :
    Joined rep pending a b :=
  Relation.EqvGen.rel _ _ (Or.inr h)

/-- A join survives when representatives stay equal and every pending pair is joined anew. -/
theorem Joined.mono {rep rep' : T → T} {pending pending' : List (T × T)}
    (hrep : ∀ a b, rep a = rep b → rep' a = rep' b)
    (hpending : ∀ a b, (a, b) ∈ pending → Joined rep' pending' a b) {a b : T}
    (h : Joined rep pending a b) : Joined rep' pending' a b := by
  induction h with
  | rel a b h =>
    rcases h with h | h
    · exact Joined.of_rep_eq (hrep a b h)
    · exact hpending a b h
  | refl a => exact Relation.EqvGen.refl a
  | symm a b _ ih => exact Relation.EqvGen.symm a b ih
  | trans a b c _ _ ih ih' => exact Relation.EqvGen.trans a b c ih ih'

/-- With nothing pending, joined terms have equal representatives. -/
theorem Joined.rep_eq {rep : T → T} {a b : T} (h : Joined rep [] a b) : rep a = rep b := by
  induction h with
  | rel a b h => simpa using h
  | refl a => rfl
  | symm a b _ ih => exact ih.symm
  | trans a b c _ _ ih ih' => exact ih.trans ih'

theorem ClosedUpTo.mono {rep : T → T} {pending pending' : List (T × T)}
    (hpending : ∀ a b, (a, b) ∈ pending → Joined rep pending' a b)
    (h : V.ClosedUpTo rep pending) : V.ClosedUpTo rep pending' := by
  intro s t hs ht hst
  obtain ⟨hmatch, hargs⟩ := h s t hs ht hst
  exact ⟨hmatch, fun a b hab ↦ (hargs a b hab).mono (fun _ _ h ↦ h) hpending⟩

/-- With nothing pending, the classes of the forest are closed under decomposition. -/
theorem ClosedUpTo.decomposes {rep : T → T} (h : V.ClosedUpTo rep []) :
    V.Decomposes fun s t ↦ rep s = rep t :=
  fun s t hst hs hmatch a b hab ↦
    ((h s t hs (hmatch.proper hs) hst).2 a b hab).rep_eq

theorem rep_equivalence (rep : T → T) : Equivalence fun s t ↦ rep s = rep t :=
  ⟨fun _ ↦ rfl, fun h ↦ h.symm, fun h h' ↦ h.trans h'⟩

/-- In a closed forest that joins the equations of `E`, terms related by `LeastDecomposing E` have
one representative. -/
theorem ClosedUpTo.rep_eq {rep : T → T} {E : T → T → Prop} (h : V.ClosedUpTo rep [])
    (hE : ∀ s t, E s t → rep s = rep t) {s t : T} (hst : V.LeastDecomposing E s t) :
    rep s = rep t :=
  hst.le (rep_equivalence rep) h.decomposes hE

section Link

variable [DecidableEq T] {F : UnionForest T} {a b : T}

/-- Linking a class without proper terms below another resolves the pending pair that named the
two classes. -/
theorem ClosedUpTo.link_var {pending : List (T × T)} {s₀ t₀ : T}
    (hclosed : V.ClosedUpTo F.rep ((s₀, t₀) :: pending)) (hproper : V.ProperRep F.rep)
    (ha : F.rep a = a) (hb : F.rep b = b) (hab : a ≠ b) (hvar : ¬ V.Proper a)
    (hpair : (F.rep s₀ = a ∧ F.rep t₀ = b) ∨ (F.rep s₀ = b ∧ F.rep t₀ = a)) :
    V.ClosedUpTo (F.link ha hb hab).rep pending ∧ V.ProperRep (F.link ha hb hab).rep := by
  have hne : ∀ t, V.Proper t → F.rep t ≠ a := by
    intro t ht h
    exact hvar (h ▸ hproper t ht)
  have hjoin : (F.link ha hb hab).rep s₀ = (F.link ha hb hab).rep t₀ :=
    (UnionForest.rep_link_eq_iff ha hb hab s₀ t₀).mpr (Or.inr hpair)
  constructor
  · intro s t hs ht hst
    have hold : F.rep s = F.rep t := by
      rcases (UnionForest.rep_link_eq_iff ha hb hab s t).mp hst with h | ⟨h, _⟩ | ⟨_, h⟩
      · exact h
      · exact absurd h (hne s hs)
      · exact absurd h (hne t ht)
    obtain ⟨hmatch, hargs⟩ := hclosed s t hs ht hold
    refine ⟨hmatch, fun c d hcd ↦ (hargs c d hcd).mono ?_ ?_⟩
    · exact fun _ _ h ↦ UnionForest.rep_link_congr ha hb hab h
    · intro x y hxy
      rcases List.mem_cons.mp hxy with heq | hmem
      · obtain ⟨rfl, rfl⟩ := Prod.mk.inj heq
        exact Joined.of_rep_eq hjoin
      · exact Joined.of_mem hmem
  · intro t ht
    rw [UnionForest.rep_link, if_neg (hne t ht)]
    exact hproper t ht

/-- Linking the classes of two matching proper representatives trades the pending pair that named
them for the pairs of their arguments. -/
theorem ClosedUpTo.link_args {pending : List (T × T)} {s₀ t₀ : T}
    (hclosed : V.ClosedUpTo F.rep ((s₀, t₀) :: pending)) (hproper : V.ProperRep F.rep)
    (ha : F.rep a = a) (hb : F.rep b = b) (hab : a ≠ b) (hpa : V.Proper a)
    (hmatch : V.Match a b) (hs₀ : F.rep s₀ = a) (ht₀ : F.rep t₀ = b) :
    V.ClosedUpTo (F.link ha hb hab).rep ((V.args a).zip (V.args b) ++ pending) ∧
      V.ProperRep (F.link ha hb hab).rep := by
  have hpb : V.Proper b := hmatch.proper hpa
  have hjoin : (F.link ha hb hab).rep s₀ = (F.link ha hb hab).rep t₀ :=
    (UnionForest.rep_link_eq_iff ha hb hab s₀ t₀).mpr (Or.inr (Or.inl ⟨hs₀, ht₀⟩))
  -- what was joined stays joined: the old pending pair now has one representative
  have hkeep : ∀ c d, Joined F.rep ((s₀, t₀) :: pending) c d →
      Joined (F.link ha hb hab).rep ((V.args a).zip (V.args b) ++ pending) c d := by
    intro c d hcd
    refine hcd.mono (fun _ _ h ↦ UnionForest.rep_link_congr ha hb hab h) ?_
    intro x y hxy
    rcases List.mem_cons.mp hxy with heq | hmem
    · obtain ⟨rfl, rfl⟩ := Prod.mk.inj heq
      exact Joined.of_rep_eq hjoin
    · exact Joined.of_mem (List.mem_append_right _ hmem)
  -- a term of the class of `a` against a term of the class of `b`
  have hacross : ∀ s t, V.Proper s → V.Proper t → F.rep s = a → F.rep t = b →
      V.Match s t ∧ ∀ c d, (c, d) ∈ (V.args s).zip (V.args t) →
        Joined (F.link ha hb hab).rep ((V.args a).zip (V.args b) ++ pending) c d := by
    intro s t hs ht hsa htb
    obtain ⟨hmsa, hargsa⟩ := hclosed s a hs hpa (hsa.trans ha.symm)
    obtain ⟨hmbt, hargsb⟩ := hclosed b t hpb ht (hb.trans htb.symm)
    refine ⟨hmsa.trans (hmatch.trans hmbt), ?_⟩
    intro c d hcd
    obtain ⟨i, hi⟩ := List.mem_iff_getElem?.mp hcd
    obtain ⟨hc, hd⟩ := List.getElem?_zip_eq_some.mp hi
    have hia : i < (V.args a).length := by
      rw [← hmsa.2]
      exact (List.getElem?_eq_some_iff.mp hc).1
    have hib : i < (V.args b).length := by
      rw [← hmatch.2]
      exact hia
    have h₁ : (c, (V.args a)[i]) ∈ (V.args s).zip (V.args a) :=
      List.mem_iff_getElem?.mpr ⟨i, List.getElem?_zip_eq_some.mpr
        ⟨hc, List.getElem?_eq_getElem hia⟩⟩
    have h₂ : ((V.args a)[i], (V.args b)[i]) ∈ (V.args a).zip (V.args b) :=
      List.mem_iff_getElem?.mpr ⟨i, List.getElem?_zip_eq_some.mpr
        ⟨List.getElem?_eq_getElem hia, List.getElem?_eq_getElem hib⟩⟩
    have h₃ : ((V.args b)[i], d) ∈ (V.args b).zip (V.args t) :=
      List.mem_iff_getElem?.mpr ⟨i, List.getElem?_zip_eq_some.mpr
        ⟨List.getElem?_eq_getElem hib, hd⟩⟩
    exact Relation.EqvGen.trans _ _ _ (hkeep _ _ (hargsa _ _ h₁))
      (Relation.EqvGen.trans _ _ _ (Joined.of_mem (List.mem_append_left _ h₂))
        (hkeep _ _ (hargsb _ _ h₃)))
  constructor
  · intro s t hs ht hst
    rcases (UnionForest.rep_link_eq_iff ha hb hab s t).mp hst with h | ⟨hsa, htb⟩ | ⟨hsb, hta⟩
    · obtain ⟨hm, hargs⟩ := hclosed s t hs ht h
      exact ⟨hm, fun c d hcd ↦ hkeep c d (hargs c d hcd)⟩
    · exact hacross s t hs ht hsa htb
    · obtain ⟨hm, hargs⟩ := hacross t s ht hs hta hsb
      refine ⟨hm.symm, fun c d hcd ↦ Relation.EqvGen.symm _ _ (hargs d c ?_)⟩
      rw [← List.zip_swap]
      exact List.mem_map.mpr ⟨(c, d), hcd, rfl⟩
  · intro t ht
    rw [UnionForest.rep_link]
    split_ifs with h
    · exact hpb
    · exact hproper t ht

end Link

end Closed

/-! ### Solutions over trees -/

section Solutions

variable (V)

/-- An interpretation of terms by trees that respects the constructors of the terms of `S`; `lab`
labels the nodes. -/
def Interprets (S : T → Prop) (lab : H → L) (σ : T → Tree L) : Prop :=
  ∀ t h, S t → V.head t = some h → σ t = Tree.node (lab h) ((V.args t).map σ)

/-- The states reached from a term when each proper term is followed into the arguments of its
representative. -/
def follow (lab : H → L) (free : T → L) (rep : T → T) (t : T) : L × List T :=
  match V.head (rep t) with
  | some h => (lab h, V.args (rep t))
  | none => (free (rep t), [])

/-- The tree obtained by following representatives; `free` labels the classes without a proper
term. -/
def solution (lab : H → L) (free : T → L) (rep : T → T) : T → Tree L :=
  Tree.unfold (V.follow lab free rep)

variable {V}

/-- Terms with one representative have one tree. -/
theorem solution_eq {lab : H → L} {free : T → L} {rep : T → T} {s t : T} (h : rep s = rep t) :
    V.solution lab free rep s = V.solution lab free rep t := by
  have hfollow : V.follow lab free rep s = V.follow lab free rep t := by
    unfold follow
    rw [h]
  unfold solution
  rw [Tree.unfold_eq, hfollow, ← Tree.unfold_eq]

/-- In a closed forest, following representatives respects constructors. -/
theorem interprets_solution {S : T → Prop} {lab : H → L} {free : T → L} {rep : T → T}
    (hclosed : V.ClosedUpTo rep []) (hproper : V.ProperRep rep) (hrep : ∀ t, rep (rep t) = rep t) :
    V.Interprets S lab (V.solution lab free rep) := by
  intro t h _ ht
  have hpt : V.Proper t := ⟨h, ht⟩
  obtain ⟨⟨hhead, hlen⟩, hargs⟩ := hclosed t (rep t) hpt (hproper t hpt) (hrep t).symm
  have hfollow : V.follow lab free rep t = (lab h, V.args (rep t)) := by
    unfold follow
    rw [← hhead, ht]
  have hmap : (V.args (rep t)).map (V.solution lab free rep) =
      (V.args t).map (V.solution lab free rep) := by
    refine List.ext_getElem (by simp [hlen]) ?_
    intro i hi hi'
    rw [List.length_map] at hi hi'
    rw [List.getElem_map, List.getElem_map]
    refine solution_eq ((hargs _ _ ?_).rep_eq).symm
    exact List.mem_iff_getElem?.mpr ⟨i, List.getElem?_zip_eq_some.mpr
      ⟨List.getElem?_eq_getElem hi', List.getElem?_eq_getElem hi⟩⟩
  unfold solution at hmap ⊢
  rw [Tree.unfold_eq, hfollow, hmap]

/-- The tree of a term that reaches finitely many terms through representatives is regular. -/
theorem regular_solution {lab : H → L} {free : T → L} {rep : T → T} {U : Finset T} {t : T}
    (ht : t ∈ U) (hU : ∀ s ∈ U, ∀ a ∈ V.args (rep s), a ∈ U) :
    Tree.Regular (V.solution lab free rep t) := by
  refine Tree.regular_unfold _ ((U : Set T).toFinite.subset ?_)
  intro s hs
  induction hs with
  | refl => exact ht
  | tail _ hstep ih =>
    refine hU _ ih _ ?_
    revert hstep
    unfold follow
    split
    · exact id
    · intro h
      simp at h

/-- A tree interpretation that solves the equations of `E` solves everything that follows from them
by decomposition. It has to respect constructors only on `S`, a set of terms that holds the equations
and is closed under arguments. -/
theorem Interprets.eq_of_leastDecomposing {lab : H → L} {σ : T → Tree L} {E : T → T → Prop}
    {S : T → Prop} (hσ : V.Interprets S lab σ) (hE : ∀ s t, E s t → σ s = σ t)
    (hS : ∀ s t, E s t → S s ∧ S t) (hargs : ∀ t, S t → ∀ a ∈ V.args t, S a) {s t : T}
    (h : V.LeastDecomposing E s t) : σ s = σ t ∧ (s = t ∨ S s ∧ S t) := by
  refine ⟨?_, h.eq_or_mem hS hargs⟩
  induction h with
  | base h => exact hE _ _ h
  | refl t => rfl
  | symm _ ih => exact ih.symm
  | trans _ _ ih ih' => exact ih.trans ih'
  | @arg s t a b hst hs hmatch hab ih =>
    obtain ⟨c, hc⟩ := hs
    obtain ⟨i, hi⟩ := List.mem_iff_getElem?.mp hab
    obtain ⟨ha, hb⟩ := List.getElem?_zip_eq_some.mp hi
    rcases hst.eq_or_mem hS hargs with rfl | ⟨hs, ht⟩
    · rw [ha] at hb
      exact congrArg σ (Option.some.inj hb)
    · rw [hσ s c hs hc, hσ t c ht (hmatch.1 ▸ hc)] at ih
      have hmap := (Tree.node_inj.mp ih).2
      have hget := congrArg (fun l ↦ l[i]?) hmap
      simp only [List.getElem?_map, ha, hb, Option.map_some, Option.some.injEq] at hget
      exact hget

/-- Equations with a tree solution never lead to a clash. -/
theorem Interprets.not_clash {lab : H → L} {σ : T → Tree L} {E : T → T → Prop} {S : T → Prop}
    (hσ : V.Interprets S lab σ) (hE : ∀ s t, E s t → σ s = σ t)
    (hS : ∀ s t, E s t → S s ∧ S t) (hargs : ∀ t, S t → ∀ a ∈ V.args t, S a)
    (hlab : ∀ s t h k, S s → S t → V.head s = some h → V.head t = some k → lab h = lab k → h = k)
    {s t : T} (h : V.LeastDecomposing E s t) : ¬ V.Clash s t := by
  rintro ⟨⟨c, hc⟩, ⟨d, hd⟩, hclash⟩
  obtain ⟨heq, hmem⟩ := hσ.eq_of_leastDecomposing hE hS hargs h
  rcases hmem with rfl | ⟨hs, ht⟩
  · exact hclash ⟨rfl, rfl⟩
  · rw [hσ s c hs hc, hσ t d ht hd] at heq
    obtain ⟨hlabel, hmap⟩ := Tree.node_inj.mp heq
    have hlen : (V.args s).length = (V.args t).length := by
      simpa using congrArg List.length hmap
    refine hclash ⟨?_, hlen⟩
    rw [hc, hd, hlab s t c d hs ht hc hd hlabel]

end Solutions

end TermView

end Sipc.Library
