import Mathlib.Data.Finset.Card
import Mathlib.Logic.Function.Iterate
import Mathlib.Logic.Relation

/-!
# Parent forests

The mathematics behind a union-find structure without ranks: a parent function whose upward paths
all end, within a bounded number of steps, at an element that is its own parent. `rep` is that
element. `link` makes one root the parent of another and changes `rep` exactly on the class of the
linked root (`rep_link`). `climb` is the loop that walks upwards; with enough fuel it returns `rep`
(`climb_eq_rep`). Linking two distinct roots leaves one root fewer in any finite set that holds them
(`card_roots_link_lt`). Steps to a strictly higher parent never return (`not_transGen_parent`), and a
function that names classes keeps naming the generated ones when two of them are merged
(`merge_eq_iff_eqvGen`).
-/

set_option autoImplicit false
set_option relaxedAutoImplicit false

namespace Sipc.Library

/-- A parent function from which every upward path reaches a root within `height` steps. -/
structure UnionForest (T : Type*) where
  parent : T → T
  height : ℕ
  rooted : ∀ t, parent (parent^[height] t) = parent^[height] t

namespace UnionForest

variable {T : Type*}

/-- The root above an element. -/
def rep (F : UnionForest T) (t : T) : T :=
  F.parent^[F.height] t

theorem parent_rep (F : UnionForest T) (t : T) : F.parent (F.rep t) = F.rep t :=
  F.rooted t

theorem iterate_of_parent_eq {f : T → T} {t : T} (h : f t = t) (n : ℕ) : f^[n] t = t :=
  Function.iterate_fixed h n

theorem rep_of_parent_eq (F : UnionForest T) {t : T} (h : F.parent t = t) : F.rep t = t :=
  iterate_of_parent_eq h F.height

theorem parent_eq_iff_rep_eq (F : UnionForest T) (t : T) : F.parent t = t ↔ F.rep t = t := by
  constructor
  · exact F.rep_of_parent_eq
  · intro h
    rw [← h]
    exact F.parent_rep t

@[simp] theorem rep_rep (F : UnionForest T) (t : T) : F.rep (F.rep t) = F.rep t :=
  F.rep_of_parent_eq (F.parent_rep t)

@[simp] theorem rep_parent (F : UnionForest T) (t : T) : F.rep (F.parent t) = F.rep t := by
  unfold rep
  rw [← Function.iterate_succ_apply, Function.iterate_succ_apply']
  exact F.rooted t

/-- Every large enough number of upward steps ends at the root. -/
theorem iterate_eq_rep (F : UnionForest T) {n : ℕ} (hn : F.height ≤ n) (t : T) :
    F.parent^[n] t = F.rep t := by
  obtain ⟨k, rfl⟩ := Nat.exists_eq_add_of_le hn
  rw [Nat.add_comm, Function.iterate_add_apply]
  exact iterate_of_parent_eq (F.rooted t) k

/-- No element is strictly above itself. -/
theorem not_transGen_parent (F : UnionForest T) (t : T) :
    ¬ Relation.TransGen (fun s p ↦ F.parent s = p ∧ s ≠ p) t t := by
  intro hcycle
  have hloop : ∀ {s p}, Relation.TransGen (fun s p ↦ F.parent s = p ∧ s ≠ p) s p →
      ∃ n, F.parent^[n + 1] s = p := by
    intro s p h
    induction h with
    | single h => exact ⟨0, h.1⟩
    | tail _ h ih =>
      obtain ⟨n, hn⟩ := ih
      exact ⟨n + 1, by rw [Function.iterate_succ_apply', hn, h.1]⟩
  obtain ⟨n, hn⟩ := hloop hcycle
  -- Running around the cycle often enough would end at a root.
  have hrep : F.rep t = t := by
    have hheight : F.height ≤ (n + 1) * F.height := Nat.le_mul_of_pos_left _ n.succ_pos
    rw [← F.iterate_eq_rep hheight, Function.iterate_mul]
    exact iterate_of_parent_eq hn F.height
  obtain ⟨p, ⟨hp, hne⟩, -⟩ := Relation.TransGen.head'_iff.mp hcycle
  exact hne (((F.parent_eq_iff_rep_eq t).mpr hrep).symm.trans hp)

/-- Two presentations of one parent function have the same roots. -/
theorem rep_congr {F G : UnionForest T} (h : F.parent = G.parent) (t : T) : F.rep t = G.rep t := by
  rw [← F.iterate_eq_rep (le_max_left F.height G.height),
    ← G.iterate_eq_rep (le_max_right F.height G.height), h]

section Decidable

variable [DecidableEq T]

/-- Walk upwards until an element is its own parent, or the fuel runs out. -/
def climb (parent : T → T) : ℕ → T → T
  | 0, t => t
  | fuel + 1, t => if parent t = t then t else climb parent fuel (parent t)

theorem climb_eq_iterate {parent : T → T} :
    ∀ (fuel : ℕ) (t : T), climb parent fuel t = parent^[fuel] t
  | 0, _ => rfl
  | fuel + 1, t => by
    unfold climb
    split_ifs with h
    · exact (iterate_of_parent_eq h (fuel + 1)).symm
    · rw [climb_eq_iterate fuel, Function.iterate_succ_apply]

theorem climb_eq_rep (F : UnionForest T) {fuel : ℕ} (h : F.height ≤ fuel) (t : T) :
    climb F.parent fuel t = F.rep t := by
  rw [climb_eq_iterate, F.iterate_eq_rep h]

/-- Where `k` steps of the old parent function end at `r`, one step more of the function that sends
the root `a` to the root `b` ends at `b` if `r = a`, and at `r` otherwise. -/
theorem iterate_update {parent : T → T} {a b : T} (ha : parent a = a) (hb : parent b = b)
    (hab : a ≠ b) :
    ∀ (k : ℕ) (t : T), parent (parent^[k] t) = parent^[k] t →
      (Function.update parent a b)^[k + 1] t =
        if parent^[k] t = a then b else parent^[k] t := by
  have hfix : Function.update parent a b b = b := by
    rw [Function.update_of_ne (Ne.symm hab), hb]
  intro k
  induction k with
  | zero =>
    intro t ht
    rw [Function.iterate_zero, id_eq] at ht
    rw [Function.iterate_one, Function.iterate_zero, id_eq, Function.update_apply, ht]
  | succ k ih =>
    intro t ht
    rw [Function.iterate_succ_apply]
    by_cases hta : t = a
    · subst hta
      rw [Function.update_self, iterate_of_parent_eq hfix, iterate_of_parent_eq ha, if_pos rfl]
    · rw [Function.update_of_ne hta, ih (parent t) (by simpa using ht),
        Function.iterate_succ_apply]

/-- Make the root `b` the parent of the root `a`. -/
def link (F : UnionForest T) {a b : T} (ha : F.rep a = a) (hb : F.rep b = b) (hab : a ≠ b) :
    UnionForest T where
  parent := Function.update F.parent a b
  height := F.height + 1
  rooted := by
    intro t
    have ha' := (F.parent_eq_iff_rep_eq a).mpr ha
    have hb' := (F.parent_eq_iff_rep_eq b).mpr hb
    rw [iterate_update ha' hb' hab F.height t (F.rooted t)]
    split_ifs with h
    · rw [Function.update_of_ne (Ne.symm hab), hb']
    · rw [Function.update_of_ne h, F.rooted t]

variable {F : UnionForest T} {a b : T} (ha : F.rep a = a) (hb : F.rep b = b) (hab : a ≠ b)

/-- Linking changes the root exactly on the class of the linked root. -/
theorem rep_link (t : T) :
    (F.link ha hb hab).rep t = if F.rep t = a then b else F.rep t :=
  iterate_update ((F.parent_eq_iff_rep_eq a).mpr ha) ((F.parent_eq_iff_rep_eq b).mpr hb) hab
    F.height t (F.rooted t)

/-- Linking keeps equal roots equal. -/
theorem rep_link_congr {s t : T} (h : F.rep s = F.rep t) :
    (F.link ha hb hab).rep s = (F.link ha hb hab).rep t := by
  rw [rep_link, rep_link, h]

theorem rep_link_eq_iff (s t : T) :
    (F.link ha hb hab).rep s = (F.link ha hb hab).rep t ↔
      F.rep s = F.rep t ∨ (F.rep s = a ∧ F.rep t = b) ∨ (F.rep s = b ∧ F.rep t = a) := by
  rw [rep_link, rep_link]
  split_ifs with hs ht ht
  · exact ⟨fun _ ↦ Or.inl (hs.trans ht.symm), fun _ ↦ rfl⟩
  · constructor
    · intro h
      exact Or.inr (Or.inl ⟨hs, h.symm⟩)
    · rintro (h | ⟨_, h⟩ | ⟨_, h⟩)
      · exact absurd (h.symm.trans hs) ht
      · exact h.symm
      · exact absurd h ht
  · constructor
    · intro h
      exact Or.inr (Or.inr ⟨h, ht⟩)
    · rintro (h | ⟨h, _⟩ | ⟨h, _⟩)
      · exact absurd (h.trans ht) hs
      · exact absurd h hs
      · exact h
  · constructor
    · exact Or.inl
    · rintro (h | ⟨h, _⟩ | ⟨_, h⟩)
      · exact h
      · exact absurd h hs
      · exact absurd h ht

/-- The roots in a finite set. -/
def roots (F : UnionForest T) (U : Finset T) : Finset T :=
  U.filter fun t ↦ F.rep t = t

/-- Linking a root of `U` to another leaves one root fewer in `U`. -/
theorem card_roots_link_lt {U : Finset T} (haU : a ∈ U) :
    ((F.link ha hb hab).roots U).card < (F.roots U).card := by
  refine Finset.card_lt_card (Finset.ssubset_iff_subset_ne.mpr ⟨?_, ?_⟩)
  · intro t ht
    obtain ⟨htU, hrep⟩ := Finset.mem_filter.mp ht
    refine Finset.mem_filter.mpr ⟨htU, ?_⟩
    rw [rep_link] at hrep
    split_ifs at hrep with h
    · rw [← hrep, hb] at h
      exact absurd h.symm hab
    · exact hrep
  · intro heq
    have hmem : a ∈ F.roots U := Finset.mem_filter.mpr ⟨haU, ha⟩
    rw [← heq] at hmem
    have hrep := (Finset.mem_filter.mp hmem).2
    rw [rep_link, if_pos ha] at hrep
    exact hab hrep.symm

end Decidable

/-! ### Merging two classes -/

/-- `rep` names the classes that `r` generates, and `rep'` differs from it by renaming the class of
`a` to that of `b`: then `rep'` names the classes generated by `r` and the pair `(a, b)`. -/
theorem merge_eq_iff_eqvGen {S : Type*} [DecidableEq S] {rep rep' : T → S} {r : T → T → Prop}
    (hrep : ∀ s t, rep s = rep t ↔ Relation.EqvGen r s t) {a b : T}
    (hrep' : ∀ t, rep' t = if rep t = rep a then rep b else rep t) (s t : T) :
    rep' s = rep' t ↔ Relation.EqvGen (fun x y ↦ r x y ∨ (x = a ∧ y = b)) s t := by
  constructor
  · have hold : ∀ {x y}, rep x = rep y →
        Relation.EqvGen (fun x y ↦ r x y ∨ (x = a ∧ y = b)) x y := fun {x y} h ↦
      Relation.EqvGen.mono (fun _ _ ↦ Or.inl) x y ((hrep x y).mp h)
    have hnew : Relation.EqvGen (fun x y ↦ r x y ∨ (x = a ∧ y = b)) a b :=
      Relation.EqvGen.rel _ _ (Or.inr ⟨rfl, rfl⟩)
    intro h
    rw [hrep', hrep'] at h
    split_ifs at h with hs ht ht
    · exact hold (hs.trans ht.symm)
    · exact ((hold hs).trans _ _ _ hnew).trans _ _ _ (hold h)
    · exact ((hold h).trans _ _ _ (hnew.symm _ _)).trans _ _ _ (hold ht.symm)
    · exact hold h
  · intro h
    induction h with
    | rel x y h =>
      rcases h with h | ⟨rfl, rfl⟩
      · rw [hrep', hrep', (hrep x y).mpr (Relation.EqvGen.rel _ _ h)]
      · rw [hrep', hrep', if_pos rfl]
        split_ifs <;> rfl
    | refl x => rfl
    | symm x y _ ih => exact ih.symm
    | trans x y z _ _ ih₁ ih₂ => exact ih₁.trans ih₂

end UnionForest

end Sipc.Library
