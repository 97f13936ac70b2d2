import Mathlib.Data.List.Basic
import Mathlib.Order.Lattice

/-!
# Ordered sets and maps

Sets and maps over an ordered type as lists in increasing order, with the operations of an ordered
container: insertion, and changing the value at a key that is added where it is missing.
-/

set_option autoImplicit false
set_option relaxedAutoImplicit false

namespace Sipc.Library

variable {α β : Type} [LinearOrder α]

/-- Insert an element that may be there. -/
def setInsert (a : α) : List α → List α
  | [] => [a]
  | b :: bs => if a = b then b :: bs else if a < b then a :: b :: bs else b :: setInsert a bs

/-- Change the value at a key, which is added with the default where it is missing. -/
def mapAt (a : α) (default : β) (change : β → β) : List (α × β) → List (α × β)
  | [] => [(a, change default)]
  | (b, v) :: m =>
    if a = b then (b, change v) :: m
    else if a < b then (a, change default) :: (b, v) :: m
    else (b, v) :: mapAt a default change m

theorem mem_setInsert {a x : α} {s : List α} : x ∈ setInsert a s ↔ x = a ∨ x ∈ s := by
  induction s with
  | nil => rw [setInsert, List.mem_singleton, or_iff_left List.not_mem_nil]
  | cons b bs ih =>
    rw [setInsert]
    split_ifs with hab hlt
    · rw [← hab, List.mem_cons]
      tauto
    · exact List.mem_cons
    · rw [List.mem_cons, ih, List.mem_cons]
      tauto

theorem pairwise_setInsert {a : α} {s : List α} (hs : s.Pairwise (· < ·)) :
    (setInsert a s).Pairwise (· < ·) := by
  induction s with
  | nil => exact List.pairwise_singleton _ _
  | cons b bs ih =>
    obtain ⟨hb, hbs⟩ := List.pairwise_cons.1 hs
    rw [setInsert]
    split_ifs with hab hlt
    · exact hs
    · refine List.pairwise_cons.2 ⟨fun x hx ↦ ?_, hs⟩
      rcases List.mem_cons.1 hx with rfl | hx
      · exact hlt
      · exact lt_trans hlt (hb x hx)
    · refine List.pairwise_cons.2 ⟨fun x hx ↦ ?_, ih hbs⟩
      rcases mem_setInsert.1 hx with rfl | hx
      · exact lt_of_le_of_ne (not_lt.1 hlt) (Ne.symm hab)
      · exact hb x hx

/-- The keys are in order. -/
def KeysInOrder (m : List (α × β)) : Prop :=
  m.Pairwise fun x y ↦ x.1 < y.1

theorem mem_keys_mapAt {a x : α} {d : β} {change : β → β} {m : List (α × β)} :
    x ∈ (mapAt a d change m).map Prod.fst ↔ x = a ∨ x ∈ m.map Prod.fst := by
  induction m with
  | nil => simp [mapAt]
  | cons b m ih =>
    obtain ⟨b, v⟩ := b
    rw [mapAt]
    split_ifs with hab hlt
    · simp [hab]
    · simp
    · rw [List.map_cons, List.mem_cons, ih, List.map_cons, List.mem_cons]
      tauto

theorem keysInOrder_mapAt {a : α} {d : β} {change : β → β} {m : List (α × β)} (hm : KeysInOrder m) :
    KeysInOrder (mapAt a d change m) := by
  induction m with
  | nil => exact List.pairwise_singleton _ _
  | cons b m ih =>
    obtain ⟨b, v⟩ := b
    obtain ⟨hb, hmm⟩ := List.pairwise_cons.1 hm
    rw [mapAt]
    split_ifs with hab hlt
    · exact List.pairwise_cons.2 ⟨hb, hmm⟩
    · refine List.pairwise_cons.2 ⟨fun x hx ↦ ?_, hm⟩
      rcases List.mem_cons.1 hx with rfl | hx
      · exact hlt
      · exact lt_trans hlt (hb x hx)
    · refine List.pairwise_cons.2 ⟨fun x hx ↦ ?_, ih hmm⟩
      rcases mem_keys_mapAt.1 (List.mem_map_of_mem hx) with hxa | hxm
      · rw [hxa]
        exact lt_of_le_of_ne (not_lt.1 hlt) (Ne.symm hab)
      · obtain ⟨y, hy, hyx⟩ := List.mem_map.1 hxm
        rw [← hyx]
        exact hb y hy

theorem lookup_cons_of_ne {a b : α} {v : β} {m : List (α × β)} (h : a ≠ b) :
    ((b, v) :: m).lookup a = m.lookup a := by
  rw [List.lookup_cons, beq_eq_false_iff_ne.2 h]

/-- In a map in order, what is found at a key is what its entry holds. -/
theorem lookup_eq_some_iff {a : α} {v : β} {m : List (α × β)} (hm : KeysInOrder m) :
    m.lookup a = some v ↔ (a, v) ∈ m := by
  induction m with
  | nil => simp
  | cons b m ih =>
    obtain ⟨b, w⟩ := b
    obtain ⟨hb, hmm⟩ := List.pairwise_cons.1 hm
    by_cases hab : a = b
    · subst hab
      have hnot : (a, v) ∉ m := fun h ↦ lt_irrefl a (hb _ h)
      rw [List.lookup_cons_self, List.mem_cons, or_iff_left hnot]
      simp [eq_comm]
    · rw [lookup_cons_of_ne hab, ih hmm, List.mem_cons]
      simp [hab]

theorem lookup_eq_none_of_lt {a : α} {m : List (α × β)} (h : ∀ x ∈ m, a < x.1) :
    m.lookup a = none :=
  List.lookup_eq_none_iff.2 fun x hx ↦ bne_iff_ne.2 (ne_of_lt (h x hx))

/-- Only the value at the key is changed. -/
theorem lookup_mapAt {a x : α} {d : β} {change : β → β} {m : List (α × β)} (hm : KeysInOrder m) :
    (mapAt a d change m).lookup x =
      if x = a then some (change ((m.lookup a).getD d)) else m.lookup x := by
  induction m with
  | nil =>
    rw [mapAt]
    split_ifs with hx
    · rw [hx, List.lookup_cons_self]
      rfl
    · exact lookup_cons_of_ne hx
  | cons b m ih =>
    obtain ⟨b, v⟩ := b
    obtain ⟨hb, hmm⟩ := List.pairwise_cons.1 hm
    rw [mapAt]
    by_cases hab : a = b
    · subst hab
      rw [if_pos rfl]
      split_ifs with hx
      · rw [hx, List.lookup_cons_self, List.lookup_cons_self]
        rfl
      · rw [lookup_cons_of_ne hx, lookup_cons_of_ne hx]
    · rw [if_neg hab]
      by_cases hlt : a < b
      · have hnone : ((b, v) :: m).lookup a = none := by
          refine lookup_eq_none_of_lt fun x hx ↦ ?_
          rcases List.mem_cons.1 hx with rfl | hx
          · exact hlt
          · exact lt_trans hlt (hb x hx)
        rw [if_pos hlt, hnone]
        split_ifs with hx
        · rw [hx, List.lookup_cons_self]
          rfl
        · exact lookup_cons_of_ne hx
      · rw [if_neg hlt, lookup_cons_of_ne hab]
        by_cases hxb : x = b
        · rw [hxb, List.lookup_cons_self, List.lookup_cons_self, if_neg (Ne.symm hab)]
        · rw [lookup_cons_of_ne hxb, lookup_cons_of_ne hxb, ih hmm]

end Sipc.Library
